import LayeredConfig.Cache.Key
import LayeredConfig.Ledger.Text
import LayeredConfig.Ledger.Track

/-!
# The cache

A `Store` keeps resolved trees with their ledgers in files of one directory, a file for each key.
An entry answers a request only if no input is newer than the entry and nothing in its ledger has
changed since. Whatever else is wrong with an entry makes it no answer, and an entry that cannot be
read, or that another engine wrote, is removed.

Entries are written beside their place and then moved there, so that nobody ever reads a part of
one. The running program is entered into the ledger of each entry.
-/

namespace LayeredConfig

/-- The identity of this engine; entries of another one are worth nothing. -/
def engineName : String := "recipe-config 0.4.0"

/-- What an entry of the cache holds. -/
structure Envelope where
  engine : String
  inputs : List FilePath
  tree : Tree
  ledger : Ledger

namespace Envelope

/-- The tree an entry is written as. -/
def asTree (e : Envelope) : Tree :=
  .map [(.str "engine", .str e.engine),
    (.str "inputs", .seq (e.inputs.map fun p => .str p.text)),
    (.str "tree", e.tree),
    (.str "deps", e.ledger.tree)]

open Yaml (Decoder)

/-- An entry as it is read. -/
def decoder : Decoder Envelope
  | depth, node => do
    let fields ← Decoder.record ["engine", "inputs", "tree", "deps"] depth node
    return {
      engine := ← Decoder.field fields "engine" Decoder.text
      inputs := ← Decoder.field fields "inputs" (Decoder.list FilePath.decoder)
      tree := ← Decoder.field fields "tree" Decoder.tree
      ledger := ← Decoder.field fields "deps" Ledger.decoder }

end Envelope

/-- A directory of results, and the packages to look for missed files in. -/
structure Store where
  root : FilePath
  packages : Packages
deriving DecidableEq, Repr

/-- What is known of an entry from outside. -/
structure EntryInfo where
  key : String
  /-- The files it was computed from; none if the entry cannot be read. -/
  inputs : List FilePath
  size : Nat
  modified : Instant
  path : FilePath
deriving DecidableEq, Repr

namespace Store

variable {m : Type → Type} [Monad m] [Host m]

/-- The file of a key. -/
def entryPath (s : Store) (key : String) : FilePath := s.root.join ⟨key ++ ".yml"⟩

/-- The key of a request. -/
def keyFor (paths : List FilePath) (settings : List String) : m String := do
  return Cache.key (← Host.directory) paths settings

/-! ## Looking up and saving -/

/-- Everything at the paths is there and not newer than the instant. -/
def noneNewer (t : Instant) : List FilePath → m Bool
  | [] => return true
  | path :: rest => do
    match ← Host.modified path with
    | some u => if u.nanoseconds ≤ t.nanoseconds then noneNewer t rest else return false
    | none => return false

/-- The entry in a file. -/
def readEntry (file : FilePath) : m (Except Error Envelope) := do
  match ← Host.readText file with
  | .error fault => return .error (.system fault)
  | .ok text =>
    match Yaml.decode Envelope.decoder text with
    | .ok e => return .ok e
    | .error fault => return .error (.record fault)

/-- Remove an entry that is worth nothing, if possible. -/
def discard (file : FilePath) : m Unit := do
  let _ ← Host.removeFile file

/-- The result kept for a request, if it still holds. -/
def lookup (s : Store) (paths : List FilePath) (settings : List String) :
    m (Option (Tree × Ledger)) := do
  if !(← Host.isDirectory s.root) then return none
  let file := s.entryPath (← keyFor paths settings)
  match ← Host.modified file with
  | none => return none
  | some written =>
    if !(← noneNewer written paths) then return none
    match ← readEntry file with
    | .error e =>
      Host.warn ("discarding corrupt cache entry " ++ file.text ++ ": " ++ e.message)
      discard file
      return none
    | .ok e =>
      if e.engine != engineName then
        discard file
        return none
      else if ← e.ledger.hasChanged written s.packages then return none
      else return some (e.tree, e.ledger)

/-- Write a file beside its place and move it there. -/
def replaceFile (s : Store) (key text : String) : m (Except SystemFault Unit) := do
  let staging := s.root.join ⟨"." ++ key ++ "." ++ (← Host.token) ++ ".tmp"⟩
  match ← Host.write staging text.toUTF8 with
  | .error fault => return .error fault
  | .ok () => Host.rename staging (s.entryPath key)

/-- Keep a result for a request. The ledger gets a record of the running program, whether or not
the result can be kept. -/
def save (s : Store) (paths : List FilePath) (settings : List String) (tree : Tree)
    (ledger : Ledger) : m (Ledger × Except Error Unit) := do
  let ledger ← match ← Host.program with
    | some program => ledger.track program .observed [(Record.engineAttribute, engineName)]
    | none => pure ledger
  match ← Host.makeDirectories s.root with
  | .error fault => return (ledger, .error (.system fault))
  | .ok () =>
    let inputs ← paths.mapM Host.normalize
    let envelope : Envelope := ⟨engineName, inputs, tree, ledger⟩
    match Yaml.render envelope.asTree with
    | .error obstacle => return (ledger, .error (.unwritable obstacle))
    | .ok text =>
      match ← s.replaceFile (← keyFor paths settings) text with
      | .error fault => return (ledger, .error (.system fault))
      | .ok () => return (ledger, .ok ())

/-! ## Managing entries -/

/-- A hexadecimal digit. -/
def isHexDigit (c : Char) : Bool :=
  c.isDigit || ('a' ≤ c && c ≤ 'f') || ('A' ≤ c && c ≤ 'F')

/-- The key of an entry's file. -/
def keyOf? (file : FilePath) : Option String :=
  if file.ending? == some "yml" then
    file.stem?.filter fun stem => stem.utf8ByteSize == 64 && stem.toList.all isHexDigit
  else none

/-- Why nothing is known of a file: reading it is refused for the same reason. -/
def refusal (file : FilePath) : m SystemFault := do
  match ← Host.read file with
  | .error fault => return fault
  | .ok _ => return .missing

/-- The error that nothing is known of the file of an entry. -/
def unknown (file : FilePath) (fault : SystemFault) : Error :=
  .cache ("cannot stat " ++ file.text ++ ": IO error for operation on " ++ file.text ++ ": "
    ++ fault.message)

/-- What is known of the entry in a file, if it is one. -/
def inspect (file : FilePath) : ExceptT Error m (Option EntryInfo) := do
  match keyOf? file with
  | none => return none
  | some key =>
    match ← Host.status file with
    | none => throw (unknown file (← refusal file))
    | some status =>
      let inputs := match ← readEntry file with
        | .ok e => e.inputs
        | .error _ => []
      return some ⟨key, inputs, status.size, status.modified, file⟩

/-- The entries among some files. -/
def inspectAll : List FilePath → ExceptT Error m (List EntryInfo)
  | [] => return []
  | file :: rest => do
    match ← inspect file with
    | some info => return info :: (← inspectAll rest)
    | none => inspectAll rest

/-- All entries, in the order of their keys. -/
def entries (s : Store) : ExceptT Error m (List EntryInfo) := do
  if !(← Host.isDirectory s.root) then return []
  match ← Host.list s.root with
  | .error _ => return []
  | .ok names =>
    let found ← inspectAll (names.map fun name => s.root.join ⟨name⟩)
    return found.mergeSort fun a b => decide (a.key ≤ b.key)

/-- Remove the entry of a key. Was there one? -/
def remove (s : Store) (key : String) : ExceptT Error m Bool := do
  let file := s.entryPath key
  if !(← Host.isPresent file) then return false
  match ← Host.removeFile file with
  | .ok () => return true
  | .error fault =>
    throw (.cache ("cannot remove " ++ file.text ++ ": " ++ fault.message))

/-- Remove the entries of some keys. -/
def removeAll (s : Store) : List String → ExceptT Error m Unit
  | [] => return
  | key :: rest => do
    let _ ← s.remove key
    s.removeAll rest

/-- Remove all entries. How many were there? -/
def clear (s : Store) : ExceptT Error m Nat := do
  let found ← s.entries
  s.removeAll (found.map (·.key))
  return found.length

end Store

end LayeredConfig
