import LayeredConfig.Cache.Listing
import LayeredConfig.Command.Basic
import LayeredConfig.Command.Completion
import LayeredConfig.Command.Failure
import LayeredConfig.Command.Terminal
import LayeredConfig.Ledger.Display
import LayeredConfig.Ledger.File
import LayeredConfig.Nested

/-!
# Running commands

`Command.run` does what a command says, on any host and terminal. What has been printed before a
failure stays printed.
-/

namespace LayeredConfig

variable {m : Type → Type} [Monad m] [Host m] [Terminal m]

/-- Fail if an action ends with an error. -/
def orFail {α : Type} (failure : Error → Failure) (act : ExceptT Error m α) :
    ExceptT Failure m α := do
  match ← act.run with
  | .ok a => return a
  | .error e => throw (failure e)

/-! ## Results -/

/-- The text of a tree. -/
def Format.render (tree : Tree) : Format → Except Failure String
  | .yaml => (Yaml.render tree).mapError .yaml
  | .json => (JsonText.render tree).mapError .json

/-- Print a tree and write the ledger. -/
def Output.write (o : Output) (tree : Tree) (ledger : Ledger) : ExceptT Failure m Unit := do
  match o.format.render tree with
  | .error failure => throw failure
  | .ok text => Terminal.print text
  match o.ledger with
  | some file => orFail (.ledger file) (ledger.save file)
  | none => pure ()

/-- The age from which on entries are removed; none if all are. -/
def Cleaning.age (c : Cleaning) : Except Failure (Option Span) :=
  match c.olderThan with
  | some text =>
    match Span.parse text with
    | .ok span => .ok (some span)
    | .error fault => .error (.duration text fault)
  | none => if c.all then .ok none else .error .noFilter

namespace Command

/-! ## Loading -/

/-- Load files that sections are looked up in. -/
def loadSources (s : Settings) : List FilePath → ExceptT Failure m (List (Tree × Ledger))
  | [] => return []
  | file :: rest => do
    let loaded ← orFail (.load file) (s.load file LoadOptions.default)
    return loaded :: (← loadSources s rest)

/-- Print a resolved file. -/
def runResolve (s : Settings) (file : FilePath) (sources : List FilePath)
    (pathField : Option String) (output : Output) : ExceptT Failure m Unit := do
  let loaded ← loadSources s sources
  let options : LoadOptions :=
    { LoadOptions.default with
      sources := if sources.isEmpty then none else some (loaded.map Prod.fst)
      pathField := pathField }
  let (tree, ledger) ← orFail (.resolve file) (s.load file options)
  output.write tree (loaded.foldl (fun l (_, consulted) => l.update consulted) ledger)

/-- The schema in a file. -/
def loadSchema (file : FilePath) (strict : Bool) : ExceptT Failure m Schema := do
  match ← Host.document file with
  | some defaults => return ⟨defaults, strict⟩
  | none => throw (.schema file (.unreadable file))

/-- The files that some inputs stand for. Only patterns have to match files that are there. -/
def expandInputs : List String → ExceptT Failure m (List FilePath)
  | [] => return []
  | input :: rest => do
    let files ← if FilePath.hasWildcard input then
        match ← Glob.files input with
        | .ok files => pure files
        | .error fault => throw (.pattern input fault)
      else pure [⟨input⟩]
    return files ++ (← expandInputs rest)

/-- Print files as sections. A single pattern stands as a whole in the ledger. -/
def runNested (s : Settings) (inputs : List String) (nameField : Option String)
    (schema : Option FilePath) (strict : Bool) (output : Output) : ExceptT Failure m Unit := do
  let schema ← match schema with
    | some file => do pure (some (← loadSchema file strict))
    | none => pure none
  let options : NestedOptions :=
    { NestedOptions.default with
      schema := schema
      naming := (nameField.map SectionName.field).getD .stem }
  let files : ExceptT Failure m (Tree × Ledger) := do
    orFail .sections (s.loadNested (← expandInputs inputs) options)
  let (tree, ledger) ← match inputs with
    | [input] =>
      if FilePath.hasWildcard input then
        orFail (.sectionsOf input) (s.loadNestedPattern input options)
      else files
    | _ => files
  output.write tree ledger

/-- Show what the load of a file consults. -/
def runDeps (s : Settings) (file : FilePath) (depth : Option Nat) : ExceptT Failure m Unit := do
  let (_, ledger) ← orFail (.resolve file) (s.load file LoadOptions.default)
  Terminal.print (ledger.outline file.text depth).draw

/-! ## The cache -/

/-- The cache in a directory. -/
def storeAt (env : Environment) (root : Option FilePath) : Store :=
  ⟨root.getD env.defaultCache, Packages.none⟩

/-- List the entries of the cache. -/
def runEntries (store : Store) (json : Bool) : ExceptT Failure m Unit := do
  let entries ← orFail (.cache store.root) store.entries
  if json then
    match Listing.json entries with
    | .ok text => Terminal.print text
    | .error fault => throw (.json fault)
  else Terminal.print (Listing.table store.root entries)

/-- The question before entries are removed. -/
def question : String := "\nDo you want to delete these cache entries? (y/N): "

/-- The answer is yes. -/
def isYes (reply : String) : Bool :=
  ["y", "yes"].contains (Text.lowered (Text.trimmed reply))

/-- Remove entries one by one. How many were removed? -/
def removeEntries (store : Store) : List EntryInfo → m Nat
  | [] => return 0
  | e :: rest => do
    match ← (store.remove e.key).run with
    | .ok _ => return (← removeEntries store rest) + 1
    | .error fault =>
      Terminal.complain ("  Failed to delete " ++ e.path.text ++ ": " ++ fault.message)
      removeEntries store rest

/-- Remove entries, and tell how many were removed. -/
def deleteEntries (store : Store) (selected : List EntryInfo) : ExceptT Failure m Unit := do
  let count ← removeEntries store selected
  Terminal.print ("\nDeleted " ++ toString count ++ " cache entries.\n")
  if count < selected.length then throw (.undeleted (selected.length - count))

/-- Announce the entries that are selected, and remove them if nothing speaks against it. -/
def cleanEntries (store : Store) (c : Cleaning) (selected : List EntryInfo) :
    ExceptT Failure m Unit := do
  if selected.isEmpty then
    Terminal.print "No cache entries match the specified criteria.\n"
    return
  Terminal.print (Listing.announcement selected)
  if c.dryRun then
    Terminal.print "\nDry run mode - no changes were made.\n"
    return
  if !c.agreed then
    Terminal.print question
    if !isYes (← Terminal.ask) then
      Terminal.print "Clean cancelled.\n"
      return
  deleteEntries store selected

/-- Remove entries of the cache. -/
def runClean (store : Store) (c : Cleaning) : ExceptT Failure m Unit := do
  match c.age with
  | .error failure => throw failure
  | .ok age =>
    let entries ← orFail (.cache store.root) store.entries
    cleanEntries store c (Listing.selected entries (← Host.now) age)

/-! ## All commands -/

/-- Do what a command says. -/
def run (env : Environment) : Command → ExceptT Failure m Unit
  | .resolve file sources pathField output flags =>
    runResolve (flags.settings env) file sources pathField output
  | .nested inputs nameField schema strict output flags =>
    runNested (flags.settings env) inputs nameField schema strict output
  | .deps file depth flags => runDeps (flags.settings env) file depth
  | .entries root json => runEntries (storeAt env root) json
  | .clean root cleaning => runClean (storeAt env root) cleaning
  | .completions shell => Terminal.print shell.script

end Command

end LayeredConfig
