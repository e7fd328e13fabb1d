import LayeredConfig.Ledger.Basic
import LayeredConfig.Text.Blank
import LayeredConfig.Text.Outline

/-!
# Showing ledgers

The outline of a ledger has a label for each record, a pointer below the record it points to and
any other record at the top. Optional files that were not found come last, under a heading of their
own.

Records are shown down to a depth. Without one they are shown to the number of records, which no
chain of pointers to a record at the top exceeds: pointers that only point to each other, or to
themselves, are below no such record.
-/

namespace LayeredConfig

namespace Record

/-- What is shown of a record: its date, its place in version control, and the engine. -/
def details (r : Record) : List String :=
  r.date.toList
    ++ (r.git.map fun g => Text.trimmed (g.branch ++ " " ++ g.describe)).toList
    ++ (r.attributes.get? engineAttribute).toList

/-- The label of a record. -/
def label (path : FilePath) (r : Record) : String :=
  if r.missing then path.text ++ " (missing)"
  else
    match r.details with
    | [] => path.text
    | details => path.text ++ " (" ++ String.intercalate ", " details ++ ")"

end Record

/-- The label of an optional file that was not found. -/
def Missed.label (miss : Missed) : String :=
  let found := miss.path.text ++ " (from " ++ miss.origin.text ++ ")"
  match miss.package with
  | some package => found ++ " [package " ++ package ++ "]"
  | none => found

namespace Ledger

/-- The records that point to a path, other than its own. -/
def pointersTo (l : Ledger) (path : FilePath) : List (FilePath × Record) :=
  l.records.filter fun (child, r) => !child.same path && r.origin.any fun origin => origin.same path

/-- The outline of a record, with so many levels of pointers below it. -/
def outlineOf (l : Ledger) : (levels : Nat) → FilePath × Record → Outline
  | 0, (path, r) => .leaf (r.label path)
  | levels + 1, (path, r) => .node (r.label path) ((l.pointersTo path).map (l.outlineOf levels))

/-- The records that are not pointers. -/
def roots (l : Ledger) : List (FilePath × Record) := l.records.filter fun e => e.2.origin.isNone

/-- The heading of the files that were not found. -/
def missedHeading : String := "missing optional includes"

/-- The outline of the files that were not found; nothing if there are none. -/
def missedOutline (l : Ledger) (isOpen : Bool) : List Outline :=
  match l.missed with
  | [] => []
  | missed =>
    [.node missedHeading (if isOpen then missed.map fun (_, miss) => .leaf miss.label else [])]

/-- The outline of a ledger under a title, down to a depth. -/
def outline (l : Ledger) (title : String) (depth : Option Nat) : Outline :=
  let depth := depth.getD (l.records.length + 1)
  .node title (l.roots.map (l.outlineOf (depth - 1)) ++ l.missedOutline (1 ≤ depth))

end Ledger

end LayeredConfig
