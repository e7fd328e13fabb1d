import LayeredConfig.Yaml.Token

/-!
# Position in a YAML text

A `Cursor` is the rest of a text together with the line, column and index it starts at. Lines end
at a line feed, a carriage return, both together, or one of three further line breaks.
-/

namespace LayeredConfig.Yaml

/-- A line break. -/
def isBreak (c : Char) : Bool :=
  c == '\n' || c == '\r' || c.toNat == 0x85 || c.toNat == 0x2028 || c.toNat == 0x2029

/-- A space or a tab. -/
def isGap (c : Char) : Bool := c == ' ' || c == '\t'

/-- A letter, a digit, an underscore or a hyphen, of ASCII. -/
def isWord (c : Char) : Bool := c.isAlphanum || c == '_' || c == '-'

/-- The character may stand in a document. -/
def isAllowed (c : Char) : Bool :=
  let n := c.toNat
  n == 9 || n == 10 || n == 13 || (0x20 ≤ n && n ≤ 0x7E) || n == 0x85 || (0xA0 ≤ n && n ≤ 0xD7FF)
    || (0xE000 ≤ n && n ≤ 0xFFFD) || 0x10000 ≤ n

/-- The value of a hexadecimal digit. -/
def hexValue? (c : Char) : Option Nat :=
  if c.isDigit then some (c.toNat - 48)
  else if 'a' ≤ c ∧ c ≤ 'f' then some (c.toNat - 87)
  else if 'A' ≤ c ∧ c ≤ 'F' then some (c.toNat - 55)
  else none

/-- The value of digits in a base of at most sixteen; zero if there are none. -/
def digitsIn? (base : Nat) (s : List Char) : Option Nat :=
  s.foldl (fun n c =>
    match n, hexValue? c with
    | some n, some d => if d < base then some (n * base + d) else none
    | _, _ => none) (some 0)

/-- The rest of a text and where it starts. -/
structure Cursor where
  rest : List Char
  line : Nat
  column : Nat
  index : Nat

namespace Cursor

/-- The start of a text. -/
def ofText (s : List Char) : Cursor := ⟨s, 0, 0, 0⟩

/-- The next character. -/
def peek (c : Cursor) : Option Char := c.rest.head?

/-- The character `n` places on. -/
def peekAt (c : Cursor) (n : Nat) : Option Char := c.rest[n]?

/-- The next character is this one. -/
def sees (c : Cursor) (x : Char) : Bool := c.peek == some x

/-- A gap, a line break or the end of the text stands `n` places on. -/
def endsAt (c : Cursor) (n : Nat) : Bool :=
  match c.peekAt n with
  | none => true
  | some x => isGap x || isBreak x

/-- A line break comes next. -/
def atBreak (c : Cursor) : Bool := c.peek.any isBreak

/-- A space or tab comes next. -/
def atGap (c : Cursor) : Bool := c.peek.any isGap

/-- The text ends here. -/
def atEnd (c : Cursor) : Bool := c.rest.isEmpty

/-- A line break or the end of the text comes next. -/
def atBreakOrEnd (c : Cursor) : Bool := c.atEnd || c.atBreak

/-- Pass `n` characters of a line. -/
def skip (c : Cursor) (n : Nat) : Cursor :=
  ⟨c.rest.drop n, c.line, c.column + n, c.index + n⟩

/-- Pass characters of a line while they satisfy `p`; also those characters. -/
def take (c : Cursor) (p : Char → Bool) : List Char × Cursor :=
  let (run, rest) := c.rest.span p
  (run, ⟨rest, c.line, c.column + run.length, c.index + run.length⟩)

/-- Pass characters of a line while they satisfy `p`. -/
def drop (c : Cursor) (p : Char → Bool) : Cursor := (c.take p).2

/-- Pass a line break; what it reads as, a line feed for all but the two separators. -/
def takeBreak (c : Cursor) : List Char × Cursor :=
  match c.rest with
  | '\r' :: '\n' :: rest => (['\n'], ⟨rest, c.line + 1, 0, c.index + 2⟩)
  | x :: rest =>
    if isBreak x then
      let kept := if x.toNat == 0x2028 || x.toNat == 0x2029 then [x] else ['\n']
      (kept, ⟨rest, c.line + 1, 0, c.index + 1⟩)
    else ([], c)
  | [] => ([], c)

/-- Pass a line break. -/
def dropBreak (c : Cursor) : Cursor := c.takeBreak.2

/-- A line that starts here opens or closes a document. -/
def atDocumentMark (c : Cursor) : Bool :=
  c.column == 0 && (c.rest.take 3 == ['-', '-', '-'] || c.rest.take 3 == ['.', '.', '.'])
    && c.endsAt 3

end Cursor

end LayeredConfig.Yaml
