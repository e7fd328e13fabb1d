import LayeredConfig.Number.Decimal
import LayeredConfig.Tree.Basic

/-!
# Writing trees as JSON

An indented document, two spaces for each level. JSON has text keys only: numbers and truth values
are written as texts when they are keys, and any other key is an error. A NaN or infinity becomes
null, and a tagged value a mapping from its tag.
-/

namespace LayeredConfig.JsonText

/-- Floats are positional between `0.00001` and `1e16`; a positive exponent has its sign. -/
def floatLayout : Decimal.Layout := ⟨-4, 16, true, "null", "null", "null"⟩

/-- Why a tree has no JSON text. -/
inductive KeyFault where
  /-- A key that is null or a collection. -/
  | notText
  /-- A key that is a NaN or an infinity. -/
  | notFinite
deriving DecidableEq, Repr

/-- What is said about a key that cannot be written. -/
def KeyFault.message : KeyFault → String
  | .notText => "key must be a string"
  | .notFinite => "float key must be finite (got NaN or +/-inf)"

/-- How a character is written inside quotes. -/
def escaped (c : Char) : List Char :=
  match c with
  | '"' => ['\\', '"']
  | '\\' => ['\\', '\\']
  | '\n' => ['\\', 'n']
  | '\r' => ['\\', 'r']
  | '\t' => ['\\', 't']
  | c =>
    let n := c.toNat
    if n == 8 then ['\\', 'b']
    else if n == 12 then ['\\', 'f']
    else if n < 32 then
      ['\\', 'u', '0', '0', Nat.digitChar (n / 16), Nat.digitChar (n % 16)]
    else [c]

/-- A text between quotes. -/
def quoted (s : String) : String :=
  String.ofList ('"' :: (s.toList.flatMap escaped ++ ['"']))

/-- The text of a key. -/
def keyText : Tree → Except KeyFault String
  | .str s => .ok s
  | .int i => .ok (toString i)
  | .bool b => .ok (if b then "true" else "false")
  | .float x => if x.isFinite then .ok (floatLayout.write x) else .error .notFinite
  | _ => .error .notText

/-- A new line at the given level. -/
def newline (level : Nat) : String := String.ofList ('\n' :: List.replicate (2 * level) ' ')

/-- A collection of written parts between two brackets. -/
def bracketed (opening closing : Char) (level : Nat) (parts : List String) : String :=
  if parts.isEmpty then String.ofList [opening, closing]
  else
    let inner := newline (level + 1)
    String.singleton opening ++ inner ++ String.intercalate ("," ++ inner) parts ++ newline level
      ++ String.singleton closing

mutual

/-- The text of a tree at a level. -/
def write (level : Nat) : Tree → Except KeyFault String
  | .null => .ok "null"
  | .bool b => .ok (if b then "true" else "false")
  | .int i => .ok (toString i)
  | .float x => .ok (floatLayout.write x)
  | .str s => .ok (quoted s)
  | .seq items => do
    return bracketed '[' ']' level (← writeItems (level + 1) items)
  | .map es => do
    return bracketed '\x7b' '\x7d' level (← writeEntries (level + 1) es)
  | .tagged tag v => do
    let part := quoted ("!" ++ String.ofList (Tree.tagName tag)) ++ ": " ++ (← write (level + 1) v)
    return bracketed '\x7b' '\x7d' level [part]

/-- The texts of items. -/
def writeItems (level : Nat) : List Tree → Except KeyFault (List String)
  | [] => .ok []
  | t :: rest => do return (← write level t) :: (← writeItems level rest)

/-- The texts of entries. -/
def writeEntries (level : Nat) : List (Tree × Tree) → Except KeyFault (List String)
  | [] => .ok []
  | (k, v) :: rest => do
    let part := quoted (← keyText k) ++ ": " ++ (← write level v)
    return part :: (← writeEntries level rest)

end

/-- The document of a tree, ended by a line break. -/
def render (t : Tree) : Except KeyFault String := do return (← write 0 t) ++ "\n"

end LayeredConfig.JsonText
