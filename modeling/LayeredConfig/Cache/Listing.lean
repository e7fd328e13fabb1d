import LayeredConfig.Cache.Store
import LayeredConfig.JsonText

/-!
# Listing entries

The texts that tell a reader which entries a cache has and which of them are about to be removed,
and the choice of entries by their age.
-/

namespace LayeredConfig

/-! ## Sizes -/

/-- A size in bytes, or with two decimals in the greatest unit of which it has one whole. -/
def sizeText (bytes : Nat) : String :=
  scaleIn 1024 ["KB", "MB", "GB", "TB"]
where
  /-- The size in one of some units, the first of which has `scale` bytes and each other one 1024
  times as many as the one before. -/
  scaleIn (scale : Nat) : List String → String
    | [] => toString bytes ++ " B"
    | unit :: greater =>
      if bytes < scale then toString bytes ++ " B"
      else if scale * 1024 ≤ bytes && !greater.isEmpty then scaleIn (scale * 1024) greater
      else
        let hundredths := divNearest (100 * bytes) scale
        toString (hundredths / 100) ++ "." ++ Instant.padded 2 (hundredths % 100) ++ " " ++ unit

/-- A text with blanks in front of it up to a width. -/
def alignRight (width : Nat) (text : String) : String :=
  String.ofList (List.replicate (width - text.length) ' ') ++ text

/-- A text with blanks behind it up to a width. -/
def alignLeft (width : Nat) (text : String) : String :=
  text ++ String.ofList (List.replicate (width - text.length) ' ')

namespace EntryInfo

/-- How much of a key is shown. -/
def shownKeyLength : Nat := 16

/-- The start of the key. -/
def shortKey (e : EntryInfo) : String := String.ofList (e.key.toList.take shownKeyLength)

/-- The first input, and how many others there are. -/
def inputsText (e : EntryInfo) : String :=
  match e.inputs with
  | [] => "(unreadable)"
  | [only] => only.text
  | first :: others => first.text ++ " (+" ++ toString others.length ++ " more)"

/-- The columns of a table of entries. -/
def columns (key size inputs : String) : String :=
  alignLeft shownKeyLength key ++ " " ++ alignRight 10 size ++ "  " ++ inputs

/-- The row of an entry in a table. -/
def row (e : EntryInfo) : String := columns e.shortKey (sizeText e.size) e.inputsText

/-- The line of an entry in an announcement. -/
def line (e : EntryInfo) : String :=
  "  " ++ e.shortKey ++ " " ++ e.inputsText ++ " (" ++ sizeText e.size ++ ")"

/-- The entry as a tree. The time is in whole seconds, and null before 1970. -/
def asTree (e : EntryInfo) : Tree :=
  .map [(.str "inputs", .seq (e.inputs.map fun p => .str p.text)),
    (.str "key", .str e.key),
    (.str "modified", if e.modified.nanoseconds < 0 then .null else .int e.modified.seconds),
    (.str "size", .int e.size)]

/-- The entry is at least as old as a span. One from the future is not. -/
def isOlder (e : EntryInfo) (now : Instant) (age : Span) : Bool :=
  decide (e.modified.nanoseconds ≤ now.nanoseconds
    ∧ (age.nanoseconds : Int) ≤ now.nanoseconds - e.modified.nanoseconds)

end EntryInfo

namespace Listing

/-- How many entries there are and how large they are together. -/
def total (entries : List EntryInfo) : String :=
  "Total: " ++ toString entries.length ++ " entries ("
    ++ sizeText (entries.foldl (fun n e => n + e.size) 0) ++ ")"

/-- Lines, each ended by a line break. -/
def text (lines : List String) : String := String.join (lines.map fun line => line ++ "\n")

/-- A table of all entries. -/
def table (root : FilePath) (entries : List EntryInfo) : String :=
  if entries.isEmpty then text ["No cache entries found in: " ++ root.text]
  else
    text (["Cache entries in " ++ root.text ++ ":", "", EntryInfo.columns "KEY" "SIZE" "INPUTS",
        String.ofList (List.replicate 80 '-')]
      ++ entries.map EntryInfo.row ++ ["", total entries])

/-- All entries as JSON. -/
def json (entries : List EntryInfo) : Except JsonText.KeyFault String :=
  JsonText.render (.seq (entries.map EntryInfo.asTree))

/-- The announcement that entries will be removed. -/
def announcement (entries : List EntryInfo) : String :=
  text (["Cache entries to be deleted:", ""] ++ entries.map EntryInfo.line ++ ["", total entries])

/-- The entries at least as old as a span, if there is one, or else all. -/
def selected (entries : List EntryInfo) (now : Instant) (age : Option Span) : List EntryInfo :=
  match age with
  | none => entries
  | some age => entries.filter fun e => e.isOlder now age

end Listing

end LayeredConfig
