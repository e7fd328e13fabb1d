import LayeredConfig.Number.Decimal
import LayeredConfig.Tree.Basic

/-!
# Trees as values of known types

Reading a text, a number or a record from a tree, and saying what is there instead. Tags do not
matter. A record does not mind unknown fields, but all its keys have to be texts, and a null is a
record without fields.
-/

namespace LayeredConfig.Typed

/-- A character as it stands between quotes in a message. -/
def quotedChar (c : Char) : List Char :=
  let n := c.toNat
  if c == '"' then ['\\', '"']
  else if c == '\\' then ['\\', '\\']
  else if c == '\n' then ['\\', 'n']
  else if c == '\r' then ['\\', 'r']
  else if c == '\t' then ['\\', 't']
  else if n == 0 then ['\\', '0']
  else if n < 32 || (0x7F ≤ n && n < 0xA0) || n == 0xAD || (0x200B ≤ n && n ≤ 0x200F)
      || (0x2028 ≤ n && n ≤ 0x202E) || (0x2060 ≤ n && n ≤ 0x206F) || n == 0xFEFF
      || (0x300 ≤ n && n ≤ 0x36F) || (0xE000 ≤ n && n ≤ 0xF8FF) then
    '\\' :: 'u' :: '\x7b' :: (Nat.toDigits 16 n ++ ['\x7d'])
  else [c]

/-- A number in a message: always positional, with a decimal point. -/
def floatLayout : Decimal.Layout := ⟨-400, 400, false, "NaN", "inf", "-inf"⟩

/-- What is found in a message. -/
def describe (t : Tree) : String :=
  match t with
  | .null => "unit value"
  | .bool b => "boolean `" ++ (if b then "true" else "false") ++ "`"
  | .int i => "integer `" ++ toString i ++ "`"
  | .float x => "floating point `" ++ floatLayout.write x ++ "`"
  | .str s => "string \"" ++ String.ofList (s.toList.flatMap quotedChar) ++ "\""
  | .seq _ => "sequence"
  | .map _ => "map"
  | .tagged _ _ => "enum"

/-- Something of another kind is found. -/
def wrongKind (found : Tree) (expected : String) : String :=
  "invalid type: " ++ describe found ++ ", expected " ++ expected

/-- A text. -/
def text (t : Tree) : Except String String :=
  match t.untagged with
  | .str s => .ok s
  | other => .error (wrongKind other "a string")

/-- A natural number below `2 ^ bits`. -/
def natural (bits : Nat) (t : Tree) : Except String Nat :=
  let expected := "u" ++ toString bits
  match t.untagged with
  | .int i =>
    if 0 ≤ i ∧ i < twoPow bits then .ok i.toNat
    else .error ("invalid value: " ++ describe (.int i) ++ ", expected " ++ expected)
  | other => .error (wrongKind other expected)

/-- The fields of a record that is called `name` in messages. -/
def fields (name : String) (t : Tree) : Except String (List (Tree × Tree)) :=
  match t.untagged with
  | .map es => .ok es
  | .null => .ok []
  | other => .error (wrongKind other ("struct " ++ name))

/-- The name of a field. -/
def fieldName (key : Tree) : Except String String :=
  match key.untagged with
  | .str s => .ok s
  | other => .error (wrongKind other "field identifier")

/-! ## Container images -/

/-- A section that names a container image and how many threads it gets. -/
structure Cab where
  image : String
  threads : Nat
deriving DecidableEq, Repr

namespace Cab

/-- The fields read so far. -/
structure Partial where
  image : Option String
  threads : Option Nat

/-- Read one more entry. -/
def readEntry (found : Partial) (key value : Tree) : Except String Partial := do
  let name ← fieldName key
  if name == "image" then
    if found.image.isSome then throw "duplicate field `image`"
    return { found with image := some (← text value) }
  else if name == "threads" then
    if found.threads.isSome then throw "duplicate field `threads`"
    return { found with threads := some (← natural 32 value) }
  else return found

/-- Read a section. -/
def read (t : Tree) : Except String Cab := do
  let found ← (← fields "Cab" t).foldlM (fun found (k, v) => readEntry found k v) ⟨none, none⟩
  match found.image with
  | some image => return ⟨image, found.threads.getD 0⟩
  | none => throw "missing field `image`"

end Cab

end LayeredConfig.Typed
