import LayeredConfig.Ledger.Basic
import LayeredConfig.Yaml.Decode
import LayeredConfig.Yaml.Writer

/-!
# Ledgers as text

A ledger is written as a tree: a mapping of records under `deps` and one of missed files under
`failed`, each by its path. What is absent, false or empty in a record is left out, except for the
time of change. Reading fills in what is left out, does not mind unknown fields, and takes any
scalar for a text.
-/

namespace LayeredConfig

/-! ## Writing -/

/-- An entry for a text that may be absent. -/
def Tree.optionalField (name : String) (value : Option String) : Entries :=
  match value with
  | some s => [(.str name, .str s)]
  | none => []

/-- The tree of git metadata. -/
def GitInfo.tree (g : GitInfo) : Tree :=
  .map ([(.str "branch", .str g.branch), (.str "describe", .str g.describe)]
    ++ if g.remotes.isEmpty then [] else [(.str "remotes", .seq (g.remotes.map Tree.str))])

/-- The tree of a record. -/
def Record.tree (r : Record) : Tree :=
  .map ([(.str "mtime", .float r.modified)]
    ++ Tree.optionalField "mtime_str" r.date
    ++ Tree.optionalField "hash" r.hash
    ++ (match r.git with
      | some g => [(.str "git", g.tree)]
      | none => [])
    ++ Tree.optionalField "origin" (r.origin.map FilePath.text)
    ++ (if r.missing then [(.str "missing", .bool true)] else [])
    ++ (if r.attributes.isEmpty then []
      else [(.str "attrs", .map (r.attributes.map fun (n, v) => (.str n, .str v)))]))

/-- The tree of a missed file. -/
def Missed.tree (f : Missed) : Tree :=
  .map ([(.str "path", .str f.path.text), (.str "origin", .str f.origin.text)]
    ++ Tree.optionalField "package" f.package
    ++ Tree.optionalField "file_name" (f.file.map FilePath.text))

/-- The tree of a ledger. -/
def Ledger.tree (l : Ledger) : Tree :=
  .map [(.str "deps", .map (l.records.map fun (p, r) => (.str p.text, r.tree))),
    (.str "failed", .map (l.missed.map fun (p, f) => (.str p.text, f.tree)))]

/-! ## Reading -/

open Yaml (Decoder)

/-- A path. -/
def FilePath.decoder : Decoder FilePath
  | depth, node => do return ⟨← Decoder.text depth node⟩

/-- Git metadata. -/
def GitInfo.decoder : Decoder GitInfo
  | depth, node => do
    let fields ← Decoder.record ["branch", "describe", "remotes"] depth node
    return {
      branch := ← Decoder.field fields "branch" Decoder.text
      describe := ← Decoder.field fields "describe" Decoder.text
      remotes := ← Decoder.fieldOr fields "remotes" [] (Decoder.list Decoder.text) }

/-- A record. -/
def Record.decoder : Decoder Record
  | depth, node => do
    let fields ← Decoder.record
      ["mtime", "mtime_str", "hash", "git", "origin", "missing", "attrs"] depth node
    return {
      modified := ← Decoder.fieldOr fields "mtime" Binary64.zero Decoder.float
      date := ← Decoder.fieldOr fields "mtime_str" none (Decoder.optional Decoder.text)
      hash := ← Decoder.fieldOr fields "hash" none (Decoder.optional Decoder.text)
      git := ← Decoder.fieldOr fields "git" none (Decoder.optional GitInfo.decoder)
      origin := ← Decoder.fieldOr fields "origin" none (Decoder.optional FilePath.decoder)
      missing := ← Decoder.fieldOr fields "missing" false Decoder.bool
      attributes := Named.ofList
        (← Decoder.fieldOr fields "attrs" [] (Decoder.table Decoder.text)) }

/-- A missed file. -/
def Missed.decoder : Decoder Missed
  | depth, node => do
    let fields ← Decoder.record ["path", "origin", "package", "file_name"] depth node
    return {
      path := ← Decoder.field fields "path" FilePath.decoder
      origin := ← Decoder.field fields "origin" FilePath.decoder
      package := ← Decoder.fieldOr fields "package" none (Decoder.optional Decoder.text)
      file := ← Decoder.fieldOr fields "file_name" none (Decoder.optional FilePath.decoder) }

namespace Ledger

/-- Values by path, a later one in place of an earlier one under the same path. -/
def byPath {α : Type} (value : Decoder α) : Decoder (List (FilePath × α))
  | depth, node => do
    return (← Decoder.table value depth node).foldl (fun es (p, a) => assign es ⟨p⟩ a) []

/-- A ledger. -/
def decoder : Decoder Ledger
  | depth, node => do
    let fields ← Decoder.record ["deps", "failed"] depth node
    return {
      records := ← Decoder.fieldOr fields "deps" [] (byPath Record.decoder)
      missed := ← Decoder.fieldOr fields "failed" [] (byPath Missed.decoder) }

/-- The text of a ledger. -/
def text (l : Ledger) : Except Yaml.Obstacle String := Yaml.render l.tree

/-- The ledger of a text. -/
def ofText (text : String) : Except Yaml.Fault Ledger := Yaml.decode decoder text

end Ledger

end LayeredConfig
