import LayeredConfig.Text.Blank
import LayeredConfig.Yaml.Page
import LayeredConfig.Yaml.Scalar

/-!
# Writing trees as YAML

Block style throughout: entries one per line, two columns deeper for each level, sequences at the
column of the key they belong to, `[]` and `\x7b\x7d` for empty collections. A text is written
plain if that reads back as the same text, as a literal block if it has a line feed, and between
single or double quotes otherwise. Lines are never broken for their length.

Not every tree can be written: a value under two tags cannot, nor a mapping of one entry whose key
is tagged or again a mapping of one entry, unless a tag stands directly in front of it.
-/

namespace LayeredConfig.Yaml

/-- Floats are positional between `0.00001` and `1e16`, with a bare exponent beyond. -/
def floatLayout : Decimal.Layout := ⟨-4, 16, false, ".nan", ".inf", "-.inf"⟩

/-! ## Styles of scalars -/

/-- The character can stand in a scalar as it is. -/
def isPrintable (c : Char) : Bool :=
  let n := c.toNat
  n == 10 || (0x20 ≤ n && n ≤ 0x7E) || (0xA0 ≤ n && n ≤ 0xD7FF)
    || (0xE000 ≤ n && n ≤ 0xFFFD && n != 0xFEFF) || 0x10000 ≤ n

/-- What a text allows its scalar to be. -/
structure Shape where
  /-- It has a line break. -/
  multiline : Bool
  plain : Bool
  single : Bool
  block : Bool

/-- An indicator that cannot begin a plain scalar, `next` being the character after it. -/
def opensIndicator (c : Char) (next : Option Char) : Bool :=
  let bare := next.all fun d => isGap d || isBreak d
  ['#', ',', '[', ']', '{', '}', '&', '*', '!', '|', '>', '\'', '"', '%', '@', '`'].contains c
    || (['?', ':', '-'].contains c && bare)

/-- An indicator inside a plain scalar: a colon before a gap, or a hash after one. -/
def innerIndicator : (before : Char) → List Char → Bool
  | _, [] => false
  | before, c :: rest =>
    (c == ':' && rest.head?.all fun d => isGap d || isBreak d)
      || (c == '#' && (isGap before || isBreak before))
      || innerIndicator c rest

/-- A pair of neighbours satisfies `p` and `q`. -/
def hasPair (p q : Char → Bool) : List Char → Bool
  | a :: b :: rest => (p a && q b) || hasPair p q (b :: rest)
  | _ => false

/-- What a text allows. -/
def shapeOf (s : List Char) : Shape :=
  match s with
  | [] => ⟨false, true, true, false⟩
  | c :: rest =>
    let isSpace (d : Char) : Bool := d == ' '
    let mark := s.take 3 == ['-', '-', '-'] || s.take 3 == ['.', '.', '.']
    let indicators := mark || opensIndicator c rest.head? || innerIndicator c rest
    let breaks := s.any isBreak
    let special := s.any (!isPrintable ·)
    let last := (rest.getLast?).getD c
    let edge := isSpace c || isBreak c || isSpace last || isBreak last
    let breakSpace := hasPair isBreak isSpace s
    let spaceBreak := hasPair isSpace isBreak s
    let never := spaceBreak || special
    { multiline := breaks
      plain := !edge && !breakSpace && !never && !breaks && !indicators
      single := !breakSpace && !never
      block := !isSpace last && !never }

/-- The style a text is written in, as a key on one line or anywhere else. Texts that would be read
as something else are quoted. -/
def styleOf (s : String) (key : Bool) : Style :=
  let chars := s.toList
  let shape := shapeOf chars
  let wanted : Style :=
    if chars.contains '\n' then .literal
    else
      match plainValue s with
      | .ok (.str _) => if hasLeadingZero chars then .singleQuoted else .plain
      | _ => .singleQuoted
  let single : Style := if shape.single then .singleQuoted else .doubleQuoted
  if key && shape.multiline then .doubleQuoted
  else
    match wanted with
    | .plain => if shape.plain && !(chars.isEmpty && key) then .plain else single
    | .literal => if shape.block && !key then .literal else .doubleQuoted
    | _ => single

/-! ## Scalars on a page -/

/-- The upper-case hexadecimal digits of a number, at least `width` of them. -/
def hexDigits (width n : Nat) : List Char :=
  let digits := (Nat.toDigits 16 n).map Char.toUpper
  List.replicate (width - digits.length) '0' ++ digits

/-- How a character is written between double quotes. -/
def escaped (c : Char) : List Char :=
  if isPrintable c && !isBreak c && c != '"' && c != '\\' then [c]
  else
    let letter : Option Char :=
      match c.toNat with
      | 0 => some '0'
      | 7 => some 'a'
      | 8 => some 'b'
      | 9 => some 't'
      | 10 => some 'n'
      | 11 => some 'v'
      | 12 => some 'f'
      | 13 => some 'r'
      | 27 => some 'e'
      | 0x22 => some '"'
      | 0x5C => some '\\'
      | 0x85 => some 'N'
      | 0xA0 => some '_'
      | 0x2028 => some 'L'
      | 0x2029 => some 'P'
      | _ => none
    match letter with
    | some x => ['\\', x]
    | none =>
      let n := c.toNat
      if n ≤ 0xFF then '\\' :: 'x' :: hexDigits 2 n
      else if n ≤ 0xFFFF then '\\' :: 'u' :: hexDigits 4 n
      else '\\' :: 'U' :: hexDigits 8 n

namespace Page

/-- A plain scalar. -/
def plain (p : Page) (s : List Char) : Page :=
  let p := if !p.spaced && !s.isEmpty then p.put ' ' else p
  { p.puts s with spaced := false, fresh := false }

/-- A scalar between single quotes; a quote inside is doubled. -/
def singleQuoted (p : Page) (indent : Int) (s : List Char) : Page :=
  let p := p.indicator ['\''] true false false
  let (p, broken) := s.foldl (fun ((p, broken) : Page × Bool) c =>
    if isBreak c then
      let p := if !broken && c == '\n' then p.newline else p
      ({ p.putBreak c with fresh := true }, true)
    else if c == ' ' then (p.put c, broken)
    else
      let p := if broken then p.indentTo indent else p
      let p := if c == '\'' then p.put '\'' else p
      ({ p.put c with fresh := false }, false)) (p, false)
  let p := if broken then p.indentTo indent else p
  { p.indicator ['\''] false false false with spaced := false, fresh := false }

/-- A scalar between double quotes. -/
def doubleQuoted (p : Page) (s : List Char) : Page :=
  let p := p.indicator ['"'] true false false
  (p.puts (s.flatMap escaped)).indicator ['"'] false false false

/-- The indicators of a literal block: an explicit indentation if the text begins with a space or
a line break, and how its end is read. -/
def blockHints (s : List Char) : List Char :=
  let width := if s.head?.any fun c => c == ' ' || isBreak c then ['2'] else []
  let chomp := match s.reverse with
    | [] => ['-']
    | [c] => if isBreak c then ['+'] else ['-']
    | c :: d :: _ => if !isBreak c then ['-'] else if isBreak d then ['+'] else []
  width ++ chomp

/-- A literal block. -/
def literal (p : Page) (indent : Int) (s : List Char) : Page :=
  let p := (p.indicator ['|'] true false false).puts (blockHints s)
  let p := { p.newline with spaced := true, fresh := true }
  (s.foldl (fun ((p, broken) : Page × Bool) c =>
    if isBreak c then ({ p.putBreak c with fresh := true }, true)
    else
      let p := if broken then p.indentTo indent else p
      ({ p.put c with fresh := false }, false)) (p, true)).1

/-- A text in the style it asks for. -/
def scalar (p : Page) (indent : Int) (key : Bool) (s : String) : Page :=
  match styleOf s key with
  | .plain => p.plain s.toList
  | .singleQuoted => p.singleQuoted indent s.toList
  | .literal | .folded => p.literal indent s.toList
  | .doubleQuoted => p.doubleQuoted s.toList

/-- A character that needs no escape in a tag. -/
def isTagSafe (c : Char) : Bool :=
  isWord c || [';', '/', '?', ':', '@', '&', '=', '+', '$', ',', '.', '~', '*', '\'', '(', ')', '[',
    ']'].contains c

/-- The characters of a tag, all others as percent escapes of their bytes. -/
def tagText (s : List Char) : List Char :=
  s.flatMap fun c =>
    if isTagSafe c then [c]
    else (String.singleton c).toUTF8.toList.flatMap fun b => '%' :: hexDigits 2 b.toNat

end Page

/-- The tag of a value as it is written: handle and suffix. The handle is empty if the suffix is
written whole. -/
def writtenTag (tag : String) : List Char × List Char :=
  let name := Tree.tagName tag
  match name with
  | ['!'] => ([], ['!'])
  | '!' :: rest => (['!'], rest)
  | name => (['!'], name)

namespace Page

/-- A tag. -/
def tag (p : Page) (t : String) : Page :=
  match writtenTag t with
  | ([], suffix) =>
    ((p.indicator ['!', '<'] true false false).puts (tagText suffix)).indicator ['>'] false false
      false
  | (handle, suffix) =>
    let p := p.indicator handle true false false
    { p.puts (tagText suffix) with spaced := false, fresh := false }

end Page

/-! ## Trees on a page -/

/-- The text of a scalar other than a string. -/
def bareText : Tree → Option String
  | .null => some "null"
  | .bool true => some "true"
  | .bool false => some "false"
  | .int i => some (toString i)
  | .float x => some (floatLayout.write x)
  | _ => none

/-- The key fits in front of a colon on one line. -/
def isShortKey : Tree → Bool
  | .seq items => items.isEmpty
  | .map es => es.isEmpty
  | .str s => !(s.toList.any isBreak) && s.utf8ByteSize ≤ 128
  | .tagged t v =>
    let (handle, suffix) := writtenTag t
    let size := handle.length + (String.ofList suffix).utf8ByteSize
    match v with
    | .seq items => items.isEmpty && size ≤ 128
    | .map es => es.isEmpty && size ≤ 128
    | .str s => !(s.toList.any isBreak) && size + s.utf8ByteSize ≤ 128
    | v => size + (((bareText v).getD "").utf8ByteSize) ≤ 128
  | _ => true

mutual

/-- A node inside a block at column `indent`. `inMapping` says that it is a key or a value, `key`
that it is a key on one line. -/
def writeNode (indent : Int) (inMapping key : Bool) : Tree → Page → Page
  | .tagged t v, p => writeNode indent inMapping key v (p.tag t)
  | .seq [], p => (p.indicator ['['] true true false).indicator [']'] false false false
  | .map [], p => (p.indicator ['\x7b'] true true false).indicator ['\x7d'] false false false
  | .seq (t :: ts), p =>
    let column := if indent < 0 then 0 else if inMapping && !p.fresh then indent else indent + 2
    writeItems column (t :: ts) p
  | .map (e :: es), p => writeEntries (if indent < 0 then 0 else indent + 2) (e :: es) p
  | .str s, p => p.scalar (if indent < 0 then 2 else indent + 2) key s
  | t, p => p.plain ((bareText t).getD "").toList

/-- The items of a sequence at column `indent`. -/
def writeItems (indent : Int) : List Tree → Page → Page
  | [], p => p
  | t :: rest, p =>
    let p := (p.indentTo indent).indicator ['-'] true false true
    writeItems indent rest (writeNode indent false false t p)

/-- The entries of a mapping at column `indent`. -/
def writeEntries (indent : Int) : List (Tree × Tree) → Page → Page
  | [], p => p
  | (k, v) :: rest, p =>
    let p := p.indentTo indent
    let p :=
      if isShortKey k then (writeNode indent true true k p).indicator [':'] false false false
      else
        let p := writeNode indent true false k (p.indicator ['?'] true false true)
        (p.indentTo indent).indicator [':'] true false true
    writeEntries indent rest (writeNode indent true false v p)

end

/-! ## Which trees can be written -/

/-- Why a tree cannot be written. -/
inductive Obstacle where
  /-- A value has two tags. -/
  | twoTags
  /-- The only key of a mapping begins like a tag. -/
  | awkwardKey
deriving DecidableEq, Repr

/-- What is said about it. -/
def Obstacle.message : Obstacle → String
  | .twoTags => "serializing nested enums in YAML is not supported yet"
  | .awkwardKey => "expected SCALAR, SEQUENCE-START, MAPPING-START, or ALIAS"

/-- A mapping of one entry cannot have this tree as its key. -/
def isAwkwardKey : Tree → Bool
  | .map [_] => true
  | .tagged _ _ => true
  | _ => false

mutual

/-- Why the tree cannot be written, if so; `marked` says that a tag stands in front of it. -/
def obstacle? (marked : Bool) : Tree → Option Obstacle
  | .tagged _ v => if marked then some .twoTags else obstacle? true v
  | .seq items => obstacleIn? items
  | .map es =>
    if !marked && es.length == 1 && es.any fun e => isAwkwardKey e.1 then some .awkwardKey
    else obstacleAmong? es
  | _ => none

/-- The first obstacle in items. -/
def obstacleIn? : List Tree → Option Obstacle
  | [] => none
  | t :: rest => (obstacle? false t).or (obstacleIn? rest)

/-- The first obstacle in keys and values. -/
def obstacleAmong? : List (Tree × Tree) → Option Obstacle
  | [] => none
  | (k, v) :: rest =>
    (obstacle? false k).or ((obstacle? false v).or (obstacleAmong? rest))

end

/-- The document of a tree, ended by a line break. -/
def render (t : Tree) : Except Obstacle String :=
  match obstacle? false t with
  | some o => .error o
  | none => .ok ((writeNode (-1) false false t Page.empty).indentTo 0).text

/-- The text of a key in messages and joined keys. Collections are written as YAML. -/
def keyText : Tree → String
  | .str s => s
  | .null => "null"
  | .bool b => if b then "true" else "false"
  | .int i => toString i
  | .float x => floatLayout.write x
  | t => ((render t).toOption.map Text.trimmedEnd).getD ""

end LayeredConfig.Yaml
