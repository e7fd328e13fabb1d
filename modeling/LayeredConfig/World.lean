import LayeredConfig.Document
import LayeredConfig.Host

/-!
# A world in memory

A `World` is everything a load can see and change: a tree of files, a clock, scripted answers of the
version control system, and records of the warnings given and the documents read. It is a `Host`,
so that whatever the library does can be run, and reasoned about, on worlds alone.

Files and directories are kept under their `Place`, the names that lead to them from the root. There
are no links. A directory keeps the time of change it was made with.
-/

namespace LayeredConfig

/-- The names from the root to a file or directory. -/
abbrev Place := List String

/-- A file or a directory. -/
inductive Node where
  | file (content : ByteArray) (modified : Instant)
  | directory (modified : Instant)

namespace Node

/-- When it was last changed. -/
def modified : Node → Instant
  | .file _ t => t
  | .directory t => t

/-- It is a directory. -/
def isDirectory : Node → Bool
  | .file _ _ => false
  | .directory _ => true

/-- What is known of it from outside. -/
def status : Node → Status
  | .file content t => ⟨false, t, content.size⟩
  | .directory t => ⟨true, t, 4096⟩

/-- The same with another time of change. -/
def stamped (t : Instant) : Node → Node
  | .file content _ => .file content t
  | .directory _ => .directory t

end Node

/-- All that a load can see and change. -/
structure World where
  /-- Files and directories below the root, each place once. -/
  nodes : List (Place × Node)
  directory : FilePath
  program : Option FilePath
  token : String
  /-- The time of change of the root and of new directories. -/
  directoryTime : Instant
  now : Instant
  /-- What the version control system says of directories, which are compared as written. -/
  gitAnswers : List ((FilePath × GitQuery) × String)
  gitMemo : GitMemo
  warnings : List String
  /-- The files whose documents were asked for. -/
  parsed : List FilePath

namespace World

/-! ## Places -/

/-- What is at a place. -/
def node? (w : World) (place : Place) : Option Node :=
  if place.isEmpty then some (.directory w.directoryTime)
  else (w.nodes.find? fun e => e.1 == place).map Prod.snd

/-- Take away what is at a place. -/
def erase (w : World) (place : Place) : World :=
  { w with nodes := w.nodes.filter fun e => e.1 != place }

/-- Take away what is at a place and below it. -/
def eraseTree (w : World) (place : Place) : World :=
  { w with nodes := w.nodes.filter fun e => !place.isPrefixOf e.1 }

/-- Put something at a place. -/
def put (w : World) (place : Place) (node : Node) : World :=
  { w with nodes := (w.nodes.filter fun e => e.1 != place) ++ [(place, node)] }

/-- The names at a place. -/
def names (w : World) (place : Place) : List String :=
  w.nodes.filterMap fun e =>
    if e.1.dropLast == place then e.1.getLast? else none

/-- Make a place a directory, and those above it, where nothing is yet. -/
def ensureDirectory (w : World) (place : Place) : World :=
  (List.range place.length).foldl (fun w n =>
    let above := place.take (n + 1)
    if (w.node? above).isSome then w else w.put above (.directory w.directoryTime)) w

/-! ## Where paths lead -/

/-- Where the pieces of a path lead from a place, and what is there. Only the last name may be
missing. -/
def walk (w : World) (place : Place) : List (List Char) →
    Except SystemFault (Place × Option Node)
  | [] => .ok (place, w.node? place)
  | piece :: rest =>
    match w.node? place with
    | none => .error .missing
    | some (.file _ _) => .error .notDirectory
    | some (.directory _) =>
      if FilePath.isIdle piece then walk w place rest
      else if piece == ['.', '.'] then walk w place.dropLast rest
      else
        let name := String.ofList piece
        let next := place ++ [name]
        if 255 < name.utf8ByteSize then .error .nameTooLong
        else if (w.node? next).isSome then walk w next rest
        else if rest.all (·.isEmpty) then .ok (next, none)
        else .error .missing

/-- Where a path leads, and what is there. -/
def locate (w : World) (p : FilePath) : Except SystemFault (Place × Option Node) :=
  if p.text.isEmpty then .error .missing
  else if p.text.toList.contains '\x00' then .error .badName
  else if 4096 ≤ p.text.utf8ByteSize then .error .nameTooLong
  else w.walk [] (FilePath.absolute w.directory p).pieces

/-- What is at a path. -/
def find? (w : World) (p : FilePath) : Option Node :=
  match w.locate p with
  | .ok (_, node) => node
  | .error _ => none

/-- The content of a file. -/
def content (w : World) (p : FilePath) : Except SystemFault ByteArray :=
  match w.locate p with
  | .ok (_, some (.file bytes _)) => .ok bytes
  | .ok (_, some (.directory _)) => .error .isDirectory
  | .ok (_, none) => .error .missing
  | .error fault => .error fault

/-- The names in a directory. -/
def listing (w : World) (p : FilePath) : Except SystemFault (List String) :=
  match w.locate p with
  | .ok (place, some (.directory _)) => .ok (w.names place)
  | .ok (_, some (.file _ _)) => .error .notDirectory
  | .ok (_, none) => .error .missing
  | .error fault => .error fault

/-! ## Changes -/

/-- Write a file. -/
def write (w : World) (p : FilePath) (bytes : ByteArray) : Except SystemFault Unit × World :=
  match w.locate p with
  | .ok (_, some (.directory _)) => (.error .isDirectory, w)
  | .ok (place, some (.file _ _)) => (.ok (), w.put place (.file bytes w.now))
  | .ok (place, none) =>
    if p.text.toList.getLast? == some '/' then (.error .isDirectory, w)
    else (.ok (), w.put place (.file bytes w.now))
  | .error fault => (.error fault, w)

/-- Make a directory in an existing one. -/
def makeDirectory (w : World) (p : FilePath) : Except SystemFault Unit × World :=
  match w.locate p with
  | .ok (_, some _) => (.error .exists, w)
  | .ok (place, none) => (.ok (), w.put place (.directory w.directoryTime))
  | .error fault => (.error fault, w)

/-- Move a file. -/
def rename (w : World) (source target : FilePath) : Except SystemFault Unit × World :=
  match w.locate source, w.locate target with
  | .error fault, _ => (.error fault, w)
  | .ok (_, none), _ => (.error .missing, w)
  | _, .error fault => (.error fault, w)
  | .ok (_, some (.directory _)), _ => (.error .isDirectory, w)
  | .ok (_, some (.file _ _)), .ok (_, some (.directory _)) => (.error .isDirectory, w)
  | .ok (old, some node), .ok (new, _) => (.ok (), (w.erase old).put new node)

/-- Remove a file. -/
def removeFile (w : World) (p : FilePath) : Except SystemFault Unit × World :=
  match w.locate p with
  | .ok (place, some (.file _ _)) => (.ok (), w.erase place)
  | .ok (_, some (.directory _)) => (.error .isDirectory, w)
  | .ok (_, none) => (.error .missing, w)
  | .error fault => (.error fault, w)

/-- The document in a file; that it was asked for is noted. -/
def document (w : World) (p : FilePath) : Option Tree × World :=
  let tree := match w.content p with
    | .error _ => none
    | .ok bytes => (String.fromUTF8? bytes).bind fun text => (Document.read text).toOption
  (tree, { w with parsed := w.parsed ++ [p] })

/-- Give the files changed at one time another time of change. -/
def restamp (w : World) (old new : Instant) : World :=
  { w with nodes := w.nodes.map fun e => if e.2.modified == old then (e.1, e.2.stamped new) else e }

end World

/-- A computation in a world. -/
abbrev InWorld := StateM World

/-- A world answers and does what a load asks. -/
instance : Host InWorld where
  directory := do return (← get).directory
  program := do return (← get).program
  token := do return (← get).token
  fileBound := do return (← get).nodes.length
  status p := do return ((← get).find? p).map Node.status
  read p := do return (← get).content p
  list p := do return (← get).listing p
  write p bytes := modifyGet fun w => w.write p bytes
  makeDirectory p := modifyGet fun w => w.makeDirectory p
  rename source target := modifyGet fun w => w.rename source target
  removeFile p := modifyGet fun w => w.removeFile p
  document p := modifyGet fun w => w.document p
  git dir query := do
    return ((← get).gitAnswers.find? fun e => e.1 == (dir, query)).map Prod.snd
  gitMemo := do return (← get).gitMemo
  keepGitMemo memo := modify fun w => { w with gitMemo := memo }
  now := do return (← get).now
  warn text := modify fun w => { w with warnings := w.warnings ++ [text] }

end LayeredConfig
