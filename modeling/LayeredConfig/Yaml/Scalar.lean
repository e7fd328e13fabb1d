import LayeredConfig.Number.Decimal
import LayeredConfig.Tree.Basic
import LayeredConfig.Yaml.Cursor

/-!
# Values of plain scalars

What an unquoted scalar stands for: null, a boolean, an integer, a float or a text. Integers are
decimal without leading zeros, or hexadecimal, octal or binary behind `0x`, `0o`, `0b`, with an
optional sign; a run of digits with a leading zero is a text. An integer that fits 64 bits, signed
or unsigned, is one; larger ones that fit 128 bits are refused, and still larger ones are floats.
-/

namespace LayeredConfig.Yaml

/-- The words for null. -/
def isNullWord (s : String) : Bool := ["null", "Null", "NULL", "~"].contains s

/-- The words for truth values. -/
def boolWord? (s : String) : Option Bool :=
  if ["true", "True", "TRUE"].contains s then some true
  else if ["false", "False", "FALSE"].contains s then some false
  else none

/-- The text without one leading sign. -/
def withoutSign (s : List Char) : List Char :=
  match s with
  | '+' :: rest => rest
  | '-' :: rest => rest
  | s => s

/-- Two or more digits, the first of them zero. -/
def hasLeadingZero (s : List Char) : Bool :=
  match withoutSign s with
  | '0' :: rest => !rest.isEmpty && rest.all Char.isDigit
  | _ => false

/-- The value of one or more digits in a base of at most sixteen. -/
def numeral? (base : Nat) (s : List Char) : Option Nat :=
  if s.isEmpty then none else digitsIn? base s

/-- The magnitude of an integer without its sign. -/
def magnitude? (s : List Char) : Option Nat :=
  match s with
  | '0' :: 'x' :: rest => numeral? 16 rest
  | '0' :: 'o' :: rest => numeral? 8 rest
  | '0' :: 'b' :: rest => numeral? 2 rest
  | s => if hasLeadingZero s then none else numeral? 10 s

/-- The value of an integer of any size. -/
def integer? (s : List Char) : Option Int :=
  match s with
  | '+' :: rest => (magnitude? rest).map Int.ofNat
  | '-' :: rest => (magnitude? rest).map fun n => -(n : Int)
  | s => (magnitude? s).map Int.ofNat

/-- The finite float, infinity or NaN a scalar stands for. -/
def float? (text : String) : Option Binary64 :=
  if [".inf", ".Inf", ".INF", "+.inf", "+.Inf", "+.INF"].contains text then
    some (Binary64.infinity false)
  else if ["-.inf", "-.Inf", "-.INF"].contains text then some (Binary64.infinity true)
  else if [".nan", ".NaN", ".NAN"].contains text then some Binary64.nan
  else (Decimal.read? text).filter Binary64.isFinite

/-- An integer scalar: nothing if the text is none or is too large for one. -/
def integerValue? (text : String) : Except Fault (Option Tree) :=
  match integer? text.toList with
  | none => .ok none
  | some i =>
    if -(twoPow 63 : Int) ≤ i ∧ i < twoPow 64 then .ok (some (.int i))
    else if -(twoPow 127 : Int) ≤ i ∧ i < twoPow 128 then .error .wrongKind
    else .ok none

/-- What an unquoted scalar stands for. -/
def plainValue (text : String) : Except Fault Tree := do
  if text.isEmpty || isNullWord text then return .null
  if let some b := boolWord? text then return .bool b
  if let some i ← integerValue? text then return i
  if !hasLeadingZero text.toList then
    if let some x := float? text then return .float x
  return .str text

end LayeredConfig.Yaml
