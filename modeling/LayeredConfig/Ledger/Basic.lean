import LayeredConfig.Git
import LayeredConfig.Glob.Pattern
import LayeredConfig.Named
import LayeredConfig.Number.Binary64

/-!
# Ledgers

A `Ledger` lists the files that a load consulted, with what was known of each, and the optional
files it could not find. Both lists keep the order in which things were met. What is recorded first
of a path stays; later records of the same path, however it is spelled, are dropped.
-/

namespace LayeredConfig

/-- What is known of a file or directory that was consulted. A record with an `origin` is a pointer
and holds nothing else. -/
structure Record where
  /-- When it was changed, in seconds since 1970. -/
  modified : Binary64
  /-- The same as a date. -/
  date : Option String
  /-- The digest of the content of a file. -/
  hash : Option String
  git : Option GitInfo
  /-- The entry of the ledger that stands for this one. -/
  origin : Option FilePath
  /-- There was nothing at the path. -/
  missing : Bool
  attributes : Named String
deriving DecidableEq, Repr

/-- An optional file that was not found. -/
structure Missed where
  /-- Where it was looked for; the entry as written if it names a package. -/
  path : FilePath
  /-- The file that asks for it. -/
  origin : FilePath
  package : Option String
  /-- The path in the package. -/
  file : Option FilePath
deriving DecidableEq, Repr

/-- The files consulted and the optional files missed. -/
structure Ledger where
  records : List (FilePath × Record)
  missed : List (FilePath × Missed)
deriving DecidableEq, Repr, Inhabited

namespace Record

/-- The attribute that names the engine a program is. -/
def engineAttribute : String := "engine"

/-- Nothing known. -/
def blank : Record := ⟨Binary64.zero, none, none, none, none, false, []⟩

/-- A pointer to another entry. -/
def pointer (origin : FilePath) : Record := { blank with origin := some origin }

end Record

namespace Ledger

/-- Nothing consulted. -/
def empty : Ledger := ⟨[], []⟩

/-- The value under a path in a list of paths. -/
def lookup {α : Type} (entries : List (FilePath × α)) (path : FilePath) : Option α :=
  (entries.find? fun e => e.1.same path).map Prod.snd

/-- Append a value under a path that is not there yet. -/
def note {α : Type} (entries : List (FilePath × α)) (path : FilePath) (a : α) :
    List (FilePath × α) :=
  if entries.any fun e => e.1.same path then entries else entries ++ [(path, a)]

/-- Put a value under a path: in its place if it is there, at the end otherwise. -/
def assign {α : Type} : List (FilePath × α) → FilePath → α → List (FilePath × α)
  | [], path, a => [(path, a)]
  | (p, b) :: rest, path, a =>
    if p.same path then (p, a) :: rest else (p, b) :: assign rest path a

/-- The record of a path in normal form. -/
def record? (l : Ledger) (path : FilePath) : Option Record := lookup l.records path

/-- A path in normal form is recorded. -/
def has (l : Ledger) (path : FilePath) : Bool := (l.record? path).isSome

/-- Record a path, unless it is recorded. -/
def addRecord (l : Ledger) (path : FilePath) (record : Record) : Ledger :=
  { l with records := note l.records path record }

/-- Note an optional file that was not found, unless it is noted. -/
def addMissed (l : Ledger) (miss : Missed) : Ledger :=
  { l with missed := note l.missed miss.path miss }

/-- Add the entries of another ledger that are not there yet. -/
def update (l other : Ledger) : Ledger :=
  { records := other.records.foldl (fun es (path, r) => note es path r) l.records
    missed := other.missed.foldl (fun es (path, r) => note es path r) l.missed }

/-! ## Patterns -/

/-- Some of the patterns matches the path. They are read one by one until one does. -/
def anyMatches (path : FilePath) : (patterns : List String) → Except Glob.Fault Bool
  | [] => .ok false
  | text :: rest =>
    match Glob.Pattern.parse text with
    | .error fault => .error fault
    | .ok pattern => if pattern.isMatch path.text then .ok true else anyMatches path rest

/-- Point the records whose paths match some of the patterns to a directory, other than the record
of the directory itself. -/
def pointTo (patterns : List String) (directory : FilePath) :
    List (FilePath × Record) → Except Glob.Fault (List (FilePath × Record))
  | [] => .ok []
  | (path, record) :: rest => do
    let hit ← anyMatches path patterns
    let rest ← pointTo patterns directory rest
    return (path, if hit && !path.same directory then .pointer directory else record) :: rest

end Ledger

end LayeredConfig
