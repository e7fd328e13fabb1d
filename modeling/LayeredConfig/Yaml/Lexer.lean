import LayeredConfig.Yaml.ScalarText

/-!
# From text to tokens

`tokens` reads a whole text. Two things make this more than a scan from left to right. Indentation
opens and closes blocks: `indents` is the stack of open columns, innermost first, and a line that
starts further left closes those it leaves. And a key is only known to be one when its colon is
met: until then its place is remembered as a `Candidate`, one for each level of flow brackets. A
candidate lapses at the end of its line or after 1024 characters; one that stands where only a key
can stand must not lapse.
-/

namespace LayeredConfig.Yaml

/-- A place where a key may have begun. -/
structure Candidate where
  /-- The key may still turn out to be one. -/
  live : Bool
  /-- Nothing but a key can stand there. -/
  required : Bool
  /-- How many tokens come before it. -/
  position : Nat
  line : Nat
  column : Nat
  index : Nat

/-- No key has begun. -/
def Candidate.none : Candidate := ⟨false, false, 0, 0, 0, 0⟩

/-- The state of reading a text. -/
structure Lexer where
  cursor : Cursor
  tokens : Array Token
  /-- One candidate for each open level of flow brackets and one for the text, innermost first. -/
  candidates : List Candidate
  /-- The column of the innermost open block, `-1` if there is none. -/
  indent : Int
  /-- The columns around it. -/
  indents : List Int
  /-- A key may begin here. -/
  keyAllowed : Bool

namespace Lexer

/-- The reader stands inside flow brackets. -/
def inFlow (s : Lexer) : Bool := 1 < s.candidates.length

/-- Add a token. -/
def emit (s : Lexer) (t : Token) : Lexer := { s with tokens := s.tokens.push t }

/-! ## Candidates for keys -/

/-- Let candidates lapse that are on an earlier line or too far back. -/
def lapse (s : Lexer) : Except Fault Lexer := do
  let late (k : Candidate) : Bool :=
    k.live && (k.line < s.cursor.line || k.index + 1024 < s.cursor.index)
  if s.candidates.any fun k => late k && k.required then throw .missingColon
  return { s with
    candidates := s.candidates.map fun k => if late k then { k with live := false } else k }

/-- Give up the innermost candidate. -/
def dropCandidate (s : Lexer) : Except Fault Lexer :=
  match s.candidates with
  | [] => .ok s
  | k :: rest =>
    if k.live && k.required then .error .missingColon
    else .ok { s with candidates := { k with live := false } :: rest }

/-- Remember the cursor as a candidate, if a key may begin there. -/
def noteCandidate (s : Lexer) : Except Fault Lexer :=
  if !s.keyAllowed then .ok s
  else do
    let s ← s.dropCandidate
    let c := s.cursor
    let k : Candidate :=
      { live := true
        required := !s.inFlow && s.indent == (c.column : Int)
        position := s.tokens.size
        line := c.line
        column := c.column
        index := c.index }
    return { s with candidates := k :: s.candidates.tail }

/-! ## Indentation -/

/-- Open a block at `column`, its first token standing at `position`, if that is further right. -/
def indentTo (s : Lexer) (column : Nat) (position : Nat) (start : Token) : Lexer :=
  if s.inFlow || (column : Int) ≤ s.indent then s
  else
    { s with
      tokens := s.tokens.insertIdxIfInBounds position start
      indents := s.indent :: s.indents
      indent := column }

/-- Close the blocks right of `column`, the outer columns being given. -/
def closeBlocks (column : Int) : (outer : List Int) → Lexer → Lexer
  | [], s => s
  | indent :: rest, s =>
    if s.indent ≤ column then s
    else closeBlocks column rest { s.emit .blockEnd with indent := indent, indents := rest }

/-- Close the blocks right of `column`; inside flow brackets indentation does not count. -/
def unindentTo (column : Int) (s : Lexer) : Lexer :=
  if s.inFlow then s else closeBlocks column s.indents s

/-! ## Between tokens -/

/-- Pass white space, comments and line breaks. Outside flow brackets a line break lets a key
begin, and tabs are white space only where none can. -/
def toToken : (fuel : Nat) → Lexer → Lexer
  | 0, s => s
  | fuel + 1, s =>
    let tabs := s.inFlow || !s.keyAllowed
    let c₁ := s.cursor.drop fun x => x == ' ' || (tabs && x == '\t')
    let c₂ := if c₁.sees '#' then c₁.drop (!isBreak ·) else c₁
    if c₂.atBreak then
      toToken fuel { s with cursor := c₂.dropBreak, keyAllowed := s.keyAllowed || !s.inFlow }
    else { s with cursor := c₂ }

/-! ## Directives, anchors and tags -/

/-- A version number of at most nine digits. -/
def versionNumber (c : Cursor) : Except Fault (Nat × Cursor) :=
  let (digits, after) := c.take Char.isDigit
  if digits.isEmpty || 9 < digits.length then .error .badDirective
  else .ok (digits.foldl (fun n d => n * 10 + (d.toNat - 48)) 0, after)

/-- A tag handle: `!`, `!!` or `!name!`. In a tag, `!name` without the closing mark is returned as
it stands; in a directive it is a fault. -/
def tagHandle (directive : Bool) (c : Cursor) : Except Fault (List Char × Cursor) :=
  if !c.sees '!' then .error .badTag
  else
    let (name, after) := (c.skip 1).take isWord
    if after.sees '!' then .ok ('!' :: (name ++ ['!']), after.skip 1)
    else if directive && !name.isEmpty then .error .badTag
    else .ok ('!' :: name, after)

/-- A character of a tag. -/
def isTagChar (verbatim : Bool) (c : Char) : Bool :=
  isWord c || [';', '/', '?', ':', '@', '&', '=', '+', '$', '.', '%', '!', '~', '*', '\'', '(',
    ')'].contains c || (verbatim && [',', '[', ']'].contains c)

/-- The bytes written by percent escapes at the start of `s`, at most `count`. -/
def escapedBytes : (count : Nat) → List Char → Option (List UInt8 × List Char)
  | 0, s => some ([], s)
  | n + 1, s =>
    match s with
    | '%' :: a :: b :: rest => do
      let byte := UInt8.ofNat ((← hexValue? a) * 16 + (← hexValue? b))
      let (more, after) ← escapedBytes n rest
      return (byte :: more, after)
    | _ => none

/-- The percent escapes of one character at the cursor. The first byte tells how many follow. -/
def tagEscape (c : Cursor) : Except Fault (Char × Cursor) :=
  match escapedBytes 1 c.rest with
  | some ([first], _) =>
    let width := if first < 0x80 then 1
      else if 0xC0 ≤ first && first < 0xE0 then 2
      else if 0xE0 ≤ first && first < 0xF0 then 3
      else if 0xF0 ≤ first && first < 0xF8 then 4 else 0
    match if width == 0 then none else escapedBytes width c.rest with
    | some (bytes, _) =>
      if bytes.tail.all fun b => 0x80 ≤ b && b < 0xC0 then
        match String.fromUTF8? ⟨bytes.toArray⟩ with
        | some text =>
          match text.toList with
          | [x] => .ok (x, c.skip (3 * width))
          | _ => .error .badTag
        | none => .error .badTag
      else .error .badTag
    | none => .error .badTag
  | _ => .error .badTag

/-- The characters of a tag from the cursor on, in reverse order after `out`. -/
def tagChars (verbatim : Bool) : (fuel : Nat) → (out : List Char) → Cursor →
    Except Fault (List Char × Cursor)
  | 0, out, c => .ok (out, c)
  | fuel + 1, out, c =>
    match c.peek with
    | some '%' => do
      let (x, after) ← tagEscape c
      tagChars verbatim fuel (x :: out) after
    | some x =>
      if isTagChar verbatim x then tagChars verbatim fuel (x :: out) (c.skip 1) else .ok (out, c)
    | none => .ok (out, c)

/-- The characters of a tag after `lead`. Something must be there. -/
def tagText (verbatim : Bool) (lead : List Char) (c : Cursor) :
    Except Fault (List Char × Cursor) := do
  let (out, after) ← tagChars verbatim (c.rest.length + 1) [] c
  if out.isEmpty && lead.isEmpty then throw .badTag
  return (lead.tail ++ out.reverse, after)

/-- A directive line. -/
def directive (c : Cursor) : Except Fault (Token × Cursor) := do
  let (name, c₁) := (c.skip 1).take isWord
  if name.isEmpty || !c₁.endsAt 0 then throw .badDirective
  let (token, c₂) ←
    if String.ofList name == "YAML" then do
      let (major, a) ← versionNumber (c₁.drop isGap)
      if !a.sees '.' then throw .badDirective
      let (minor, b) ← versionNumber (a.skip 1)
      pure (Token.version major minor, b)
    else if String.ofList name == "TAG" then do
      let (handle, a) ← tagHandle true (c₁.drop isGap)
      if !a.atGap then throw .badDirective
      let (lead, b) ← tagText true [] (a.drop isGap)
      if !b.endsAt 0 then throw .badDirective
      pure (Token.tagDirective (String.ofList handle) (String.ofList lead), b)
    else throw .badDirective
  let c₃ := c₂.drop isGap
  let c₄ := if c₃.sees '#' then c₃.drop (!isBreak ·) else c₃
  if !c₄.atBreakOrEnd then throw .badDirective
  return (token, c₄.dropBreak)

/-- The name of an anchor or alias. -/
def anchorName (c : Cursor) : Except Fault (String × Cursor) :=
  let (name, after) := (c.skip 1).take isWord
  let follows := after.endsAt 0
    || after.peek.any fun x => ['?', ':', ',', ']', '}', '%', '@', '`'].contains x
  if name.isEmpty || !follows then .error .badAnchor else .ok (String.ofList name, after)

/-- A tag. The handle is empty for a verbatim tag and for the lone `!`. -/
def tag (flow : Bool) (c : Cursor) : Except Fault (Token × Cursor) := do
  let (token, after) ←
    if c.peekAt 1 == some '<' then do
      let (suffix, a) ← tagText true [] (c.skip 2)
      if !a.sees '>' then throw .badTag
      pure (Token.tag "" (String.ofList suffix), a.skip 1)
    else do
      let (handle, a) ← tagHandle false c
      if 2 ≤ handle.length && handle.getLast? == some '!' then do
        let (suffix, b) ← tagText false [] a
        pure (Token.tag (String.ofList handle) (String.ofList suffix), b)
      else do
        let (suffix, b) ← tagText false handle a
        pure (if suffix.isEmpty then Token.tag "" "!" else Token.tag "!" (String.ofList suffix), b)
  if !(flow && after.sees ',') && !after.endsAt 0 then throw .badTag
  return (token, after)

/-! ## One token -/

/-- Move the cursor and add a token. -/
def advance (s : Lexer) (c : Cursor) (t : Token) (keyAllowed : Bool) : Lexer :=
  { s with cursor := c, tokens := s.tokens.push t, keyAllowed := keyAllowed }

/-- The mark that opens or closes a document. -/
def documentMark (s : Lexer) (t : Token) : Except Fault Lexer := do
  let s ← (s.unindentTo (-1)).dropCandidate
  return s.advance (s.cursor.skip 3) t false

/-- An opening flow bracket. -/
def openFlow (s : Lexer) (t : Token) : Except Fault Lexer := do
  let s ← s.noteCandidate
  let s := { s with candidates := Candidate.none :: s.candidates }
  return s.advance (s.cursor.skip 1) t true

/-- A closing flow bracket. -/
def closeFlow (s : Lexer) (t : Token) : Except Fault Lexer := do
  let s ← s.dropCandidate
  let s := if s.inFlow then { s with candidates := s.candidates.tail } else s
  return s.advance (s.cursor.skip 1) t false

/-- A hyphen that opens an item. -/
def itemMark (s : Lexer) : Except Fault Lexer := do
  if !s.inFlow && !s.keyAllowed then throw .misplaced
  let s := s.indentTo s.cursor.column s.tokens.size .blockSequenceStart
  let s ← s.dropCandidate
  return s.advance (s.cursor.skip 1) .blockEntry true

/-- A question mark that opens a key. -/
def keyMark (s : Lexer) : Except Fault Lexer := do
  if !s.inFlow && !s.keyAllowed then throw .misplaced
  let s := s.indentTo s.cursor.column s.tokens.size .blockMappingStart
  let s ← s.dropCandidate
  return s.advance (s.cursor.skip 1) .key (!s.inFlow)

/-- A colon that opens a value. A live candidate becomes a key after the fact. -/
def valueMark (s : Lexer) : Except Fault Lexer :=
  match s.candidates with
  | [] => .error .misplaced
  | k :: rest =>
    if k.live then
      let s := { s with
        tokens := s.tokens.insertIdxIfInBounds k.position .key
        candidates := { k with live := false } :: rest }
      let s := s.indentTo k.column k.position .blockMappingStart
      .ok (s.advance (s.cursor.skip 1) .value false)
    else if !s.inFlow && !s.keyAllowed then .error .misplaced
    else
      let s := s.indentTo s.cursor.column s.tokens.size .blockMappingStart
      .ok (s.advance (s.cursor.skip 1) .value (!s.inFlow))

/-- The token at the cursor, which stands at no white space and not at the end. -/
def token (s : Lexer) : Except Fault Lexer := do
  let c := s.cursor
  let word : Bool := c.endsAt 1
  let flow := s.inFlow
  if c.column == 0 && c.sees '%' then
    let s ← (s.unindentTo (-1)).dropCandidate
    let (t, after) ← directive c
    return s.advance after t false
  if c.atDocumentMark then
    return ← s.documentMark (if c.sees '-' then .documentStart else .documentEnd)
  match c.peek with
  | none => return s
  | some x =>
    if x == '[' then s.openFlow .flowSequenceStart
    else if x == '\x7b' then s.openFlow .flowMappingStart
    else if x == ']' then s.closeFlow .flowSequenceEnd
    else if x == '\x7d' then s.closeFlow .flowMappingEnd
    else if x == ',' then do
      let s ← s.dropCandidate
      return s.advance (c.skip 1) .flowEntry true
    else if x == '-' && word then s.itemMark
    else if x == '?' && (flow || word) then s.keyMark
    else if x == ':' && (flow || word) then s.valueMark
    else if x == '*' || x == '&' then do
      let s ← s.noteCandidate
      let (name, after) ← anchorName c
      return s.advance after (if x == '*' then .alias name else .anchor name) false
    else if x == '!' then do
      let s ← s.noteCandidate
      let (t, after) ← tag flow c
      return s.advance after t false
    else if (x == '|' || x == '>') && !flow then do
      let s ← s.dropCandidate
      let literal := x == '|'
      let (text, after) ← blockScalar literal s.indent c
      return s.advance after (.scalar text (if literal then .literal else .folded)) true
    else if x == '\'' || x == '"' then do
      let s ← s.noteCandidate
      let single := x == '\''
      let (text, after) ← quotedScalar single c
      return s.advance after
        (.scalar text (if single then .singleQuoted else .doubleQuoted)) false
    else if [',', '[', ']', '{', '}', '#', '&', '*', '!', '|', '>', '\'', '"', '%', '@',
        '`'].contains x || isGap x then
      throw .strayCharacter
    else do
      let s ← s.noteCandidate
      let (text, broken, after) ← plainScalar flow (s.indent + 1).toNat c
      return s.advance after (.scalar text .plain) broken

/-- Read on to the end of the text. -/
def run : (fuel : Nat) → Lexer → Except Fault Lexer
  | 0, s => .ok s
  | fuel + 1, s => do
    let s ← (s.toToken (s.cursor.rest.length + 1)).lapse
    let s := s.unindentTo s.cursor.column
    if s.cursor.atEnd then
      let c := s.cursor
      let ended : Cursor := if c.column == 0 then c else ⟨[], c.line + 1, 0, c.index⟩
      let s ← ({ s with cursor := ended }).unindentTo (-1) |>.dropCandidate
      return s.emit .streamEnd
    run fuel (← s.token)

end Lexer

/-- The tokens of a text. A byte order mark at its start does not count. -/
def tokens (text : String) : Except Fault (List Token) := do
  let chars := match text.toList with
    | c :: rest => if c.toNat == 0xFEFF then rest else c :: rest
    | [] => []
  if !chars.all isAllowed then throw .forbiddenCharacter
  let s ← Lexer.run (chars.length + 2)
    { cursor := Cursor.ofText chars
      tokens := #[]
      candidates := [Candidate.none]
      indent := -1
      indents := []
      keyAllowed := true }
  return s.tokens.toList

end LayeredConfig.Yaml
