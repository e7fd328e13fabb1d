import LayeredConfig.Number.Natural
import LayeredConfig.Text.Blank

/-!
# Section paths

A section path such as `cabs.wsclean.inputs` or `steps[0].params` names a node of a tree by the
keys and indices that lead to it. `parse` reads one, character by character; a backslash takes the
next character as it is, a bracket holds an index, a bare key or a quoted key. Any text is a
section path: what is not closed ends with the text.

`childLabel` and `indexLabel` extend the label of a node by one step. Labels appear in messages.
-/

namespace LayeredConfig

/-- One step into a tree. -/
inductive Segment where
  | key (name : String)
  | index (i : Nat)
deriving DecidableEq, Repr

namespace Segment

/-- The step as it stands in messages. -/
def text : Segment → String
  | .key name => name
  | .index i => "[" ++ toString i ++ "]"

/-- A decimal number below `2 ^ 64`, a plus sign in front allowed. -/
def word? (s : List Char) : Option Nat :=
  let digits := match s with
    | '+' :: rest => rest
    | s => s
  if digits.isEmpty || !digits.all Char.isDigit then none
  else
    let n := digits.foldl (fun n c => n * 10 + (c.toNat - 48)) 0
    if n < twoPow 64 then some n else none

/-- What an unquoted bracket stands for: an index if it is one, nothing if it is blank, otherwise
the key without the white space around it. -/
def ofBracket (content : List Char) : List Segment :=
  let bare := Text.trimBoth content
  match word? bare with
  | some i => [.index i]
  | none => if bare.isEmpty then [] else [.key (String.ofList bare)]

/-- What a stretch outside brackets stands for. -/
def ofBare (name : List Char) : List Segment :=
  if name.isEmpty then [] else [.key (String.ofList name)]

end Segment

namespace SectionPath

/-- Where the reader stands. The characters of the current piece are kept in reverse. -/
inductive Reading where
  | bare (piece : List Char)
  | bareEscape (piece : List Char)
  | opened
  | bracket (piece : List Char)
  | quoted (quote : Char) (piece : List Char)
  | quotedEscape (quote : Char) (piece : List Char)

/-- Read on from a given state. -/
def read : Reading → List Char → List Segment
  | .bare piece, [] => Segment.ofBare piece.reverse
  | .bareEscape piece, [] => Segment.ofBare piece.reverse
  | .opened, [] => []
  | .bracket piece, [] => Segment.ofBracket piece.reverse
  | .quoted _ piece, [] => [.key (String.ofList piece.reverse)]
  | .quotedEscape _ piece, [] => [.key (String.ofList piece.reverse)]
  | .bare piece, c :: rest =>
    if c = '\\' then read (.bareEscape piece) rest
    else if c = '.' then Segment.ofBare piece.reverse ++ read (.bare []) rest
    else if c = '[' then Segment.ofBare piece.reverse ++ read .opened rest
    else read (.bare (c :: piece)) rest
  | .bareEscape piece, c :: rest => read (.bare (c :: piece)) rest
  | .opened, c :: rest =>
    if c = '"' ∨ c = '\'' then read (.quoted c []) rest
    else if c = ']' then read (.bare []) rest
    else read (.bracket [c]) rest
  | .bracket piece, c :: rest =>
    if c = ']' then Segment.ofBracket piece.reverse ++ read (.bare []) rest
    else read (.bracket (c :: piece)) rest
  | .quoted q piece, c :: rest =>
    if c = '\\' then read (.quotedEscape q piece) rest
    else if c = q then
      match rest with
      | ']' :: after => .key (String.ofList piece.reverse) :: read (.bare []) after
      | rest => read (.quoted q (c :: piece)) rest
    else read (.quoted q (c :: piece)) rest
  | .quotedEscape q piece, c :: rest => read (.quoted q (c :: piece)) rest

/-- The steps a section path names; a blank text names none. -/
def parse (path : String) : List Segment :=
  if (Text.trimBoth path.toList).isEmpty then [] else read (.bare []) path.toList

/-! ## Labels -/

/-- The label of an entry of a mapping. -/
def childLabel (parent key : String) : String :=
  if parent.isEmpty then key else parent ++ "." ++ key

/-- The label of an item of a sequence. -/
def indexLabel (parent : String) (i : Nat) : String := parent ++ "[" ++ toString i ++ "]"

end SectionPath

end LayeredConfig
