import LayeredConfig.Cache.Store
import LayeredConfig.Resolve

/-!
# Loading files

`Settings.load` reads one file and resolves it; the result is a tree and the ledger of what was
consulted. Included files are loaded the same way, except that their `_use` directives are left to
the file that includes them.

If there is a cache, it is asked first, and a fresh result is kept. The settings that a result
depends on are part of its key. Results that depend on trees from outside are kept only if the
caller gives keys of its own to tell them apart.
-/

namespace LayeredConfig

/-- What is asked of a load. -/
structure LoadOptions where
  /-- Trees that reused sections are looked up in. -/
  sources : Option (List Tree)
  name : Option String
  /-- The label of the document in messages; its name if there is none. -/
  location : Option String
  includes : Bool
  /-- Reused sections are looked up in the document itself first. -/
  selfReferences : Bool
  /-- The key under which each file's path is stored in its tree. -/
  pathField : Option String
  useCache : Bool
  cacheKeys : List String

namespace LoadOptions

/-- Include files, look sections up in the document, use the cache. -/
def default : LoadOptions := ⟨none, none, none, true, true, none, true, []⟩

/-- The label of the document. -/
def label (o : LoadOptions) : String := (o.location.or o.name).getD ""

/-- The caller gives trees, but no keys to tell them apart. -/
def isUnkeyed (sources : Option (List Tree)) (cacheKeys : List String) : Bool :=
  sources.isSome && cacheKeys.isEmpty

end LoadOptions

/-- The loading of one file. -/
structure Request where
  path : FilePath
  location : String
  includes : Bool
  /-- Trees that reused sections are looked up in; none to leave `_use` alone. -/
  sources : Option (List Tree)
  selfReferences : Bool
  pathField : Option String
  /-- The files that include one another down to this one. -/
  chain : List FilePath
  /-- What the key in the cache is made of; none to do without the cache. -/
  cacheKeys : Option (List String)

/-- The request for what is asked with some options. -/
def LoadOptions.request (o : LoadOptions) (path : FilePath) (cacheKeys : Option (List String)) :
    Request :=
  { path := path
    location := o.label
    includes := o.includes
    sources := some (o.sources.getD [])
    selfReferences := o.selfReferences
    pathField := o.pathField
    chain := [path]
    cacheKeys := cacheKeys }

namespace Request

/-- Where sections are looked up for a document: in itself first, if it may refer to itself. -/
def sourcesWith (request : Request) (document : Tree) : Option (List Tree) :=
  request.sources.map fun sources =>
    if request.selfReferences then document :: sources else sources

/-- Where the document stands in the first source, if it is that source. -/
def position (request : Request) : Position :=
  if request.sources.isSome && request.selfReferences then some [] else none

end Request

namespace Settings

/-! ## Keys -/

/-- The keys of everything in the settings that a result can depend on. -/
def keys (s : Settings) (mode : String) (pathField : Option String) : List String :=
  ["mode=" ++ mode]
    ++ s.includeRoots.map (fun root => "include-root=" ++ root.text)
    ++ s.packages.registered.map (fun (name, dir) => "package=" ++ name ++ "=" ++ dir.text)
    ++ s.packages.roots.map (fun root => "package-root=" ++ root.text)
    ++ (pathField.map fun field => "include-path-field=" ++ field).toList

/-- A truth value in a key. -/
def flag (b : Bool) : String := if b then "true" else "false"

/-- The keys of a load, unless it must not be kept. -/
def loadKeys? (s : Settings) (o : LoadOptions) : Option (List String) :=
  if !o.useCache || LoadOptions.isUnkeyed o.sources o.cacheKeys then none
  else
    let mode := "load includes=" ++ flag o.includes ++ " self-refs=" ++ flag o.selfReferences
    some (s.keys mode o.pathField ++ o.cacheKeys)

/-- The cache, if there is one. -/
def store? (s : Settings) : Option Store := s.cache.map fun root => ⟨root, s.packages⟩

/-- The cache and the keys of a request, if it is to be kept. -/
def storeFor? (s : Settings) (cacheKeys : Option (List String)) : Option (Store × List String) :=
  s.store?.bind fun store => cacheKeys.map fun keys => (store, keys)

/-! ## Files -/

variable {m : Type → Type} [Monad m] [Host m]

/-- How deep directives may be nested beyond the nodes of a tree: as deep as documents can be, in
all files that include one another. -/
def nestingRoom : m Nat := do return Yaml.depthLimit * ((← Host.fileBound) + 1)

/-- The request for a file that is included. -/
def includedRequest (s : Settings) (pathField : Option String) (path : FilePath)
    (chain : List FilePath) (location : String) : Request :=
  { path := path
    location := location
    includes := true
    sources := none
    selfReferences := false
    pathField := pathField
    chain := chain ++ [path]
    cacheKeys := some (s.keys "included" pathField) }

/-- The result the cache has for some paths. -/
def cached (store : Option (Store × List String)) (paths : List FilePath) :
    m (Option (Tree × Ledger)) :=
  match store with
  | some (store, keys) => store.lookup paths keys
  | none => return none

/-- Keep a result, or warn that it cannot be kept. What it is for is told in the warning. -/
def keep (store : Option (Store × List String)) (paths : List FilePath) (what : String)
    (tree : Tree) (ledger : Ledger) : m (Tree × Ledger) :=
  match store with
  | some (store, keys) => do
    let (ledger, outcome) ← store.save paths keys tree ledger
    match outcome with
    | .ok () => pure ()
    | .error e => Host.warn ("cannot cache " ++ what ++ ": " ++ e.message)
    return (tree, ledger)
  | none => return (tree, ledger)

/-- Store the path of a file in its tree. -/
def withPath (field : Option String) (path : FilePath) : Tree → Tree
  | .map es =>
    match field with
    | some name => .map (Entries.put es (.str name) (.str path.text))
    | none => .map es
  | t => t

/-- What the resolution of a request's document is told, included files being loaded by `load`. -/
def scope (s : Settings) (load : FilePath → List FilePath → String →
    ExceptT Error m (Tree × Ledger)) (request : Request) (room : Nat) : Scope m :=
  { owner := request.path
    chain := request.chain
    includes := request.includes
    settings := s
    room := room
    load := load }

/-- Resolve a document for a request, included files being loaded by `load`. -/
def resolveFor (s : Settings) (load : FilePath → List FilePath → String →
    ExceptT Error m (Tree × Ledger)) (request : Request) (document : Tree) :
    ExceptT Error m (Tree × Ledger) := do
  let scope := s.scope load request (← nestingRoom)
  let (tree, progress) ←
    (scope.resolveDocument request.location request.position document).run
      ⟨request.sourcesWith document, Ledger.empty⟩
  return (tree, progress.ledger)

/-- Load a file. So many files may include one another. -/
def loadFile (s : Settings) : (budget : Nat) → Request → ExceptT Error m (Tree × Ledger)
  | 0, request => throw (.unresolved request.path request.location .unbounded)
  | budget + 1, request => do
    let store := s.storeFor? request.cacheKeys
    match ← cached store [request.path] with
    | some hit => return hit
    | none =>
      match ← Host.document request.path with
      | none => throw (.unreadable request.path)
      | some document =>
        let ledger ← Ledger.empty.add request.path
        let (tree, consulted) ← s.resolveFor
          (fun path chain location =>
            s.loadFile budget (s.includedRequest request.pathField path chain location))
          request document
        keep store [request.path] request.path.text
          (withPath request.pathField request.path tree) (ledger.update consulted)

/-- Load one file. -/
def load (s : Settings) (path : FilePath) (o : LoadOptions) : ExceptT Error m (Tree × Ledger) := do
  let path ← Host.normalize path
  s.loadFile ((← Host.fileBound) + 1) (o.request path (s.loadKeys? o))

/-- Resolve a tree as if it were the document in a file. The cache has no part in it, except for
the files that are included. -/
def resolve (s : Settings) (document : Tree) (owner : FilePath) (o : LoadOptions) :
    ExceptT Error m (Tree × Ledger) := do
  let owner ← Host.normalize owner
  let budget ← Host.fileBound
  s.resolveFor
    (fun path chain location =>
      s.loadFile budget (s.includedRequest o.pathField path chain location))
    (o.request owner none)
    document

end Settings

end LayeredConfig
