import LayeredConfig.Yaml.Cursor

/-!
# Scalars of YAML

Reading one scalar in each of the five styles. In every style a single line break between words
reads as a space and each further one as itself, except in a literal block, where line breaks stay.
-/

namespace LayeredConfig.Yaml

/-- Line breaks met since the last word, kept in order. -/
structure Gap where
  /-- Spaces since the last word, while no line break has been met. -/
  spaces : List Char := []
  /-- The first line break. -/
  first : List Char := []
  /-- The line breaks after the first. -/
  more : List Char := []
  /-- A line break has been met. -/
  broken : Bool := false

namespace Gap

/-- What the gap reads as between two words. -/
def fold (g : Gap) : List Char :=
  if g.broken then
    if g.first == ['\n'] then (if g.more.isEmpty then [' '] else g.more)
    else g.first ++ g.more
  else g.spaces

/-- Pass the spaces, tabs and line breaks at the cursor. With `indent`, a tab that stands on a new
line before that column is a fault. -/
def pass (indent : Option Nat) : (fuel : Nat) → Gap → Cursor → Except Fault (Gap × Cursor)
  | 0, g, c => .ok (g, c)
  | fuel + 1, g, c =>
    match c.peek with
    | none => .ok (g, c)
    | some x =>
      if isGap x then
        if g.broken && x == '\t' && indent.any (c.column < ·) then .error .tabIndentation
        else if g.broken then pass indent fuel g (c.skip 1)
        else pass indent fuel { g with spaces := g.spaces ++ [x] } (c.skip 1)
      else if isBreak x then
        let (text, after) := c.takeBreak
        if g.broken then pass indent fuel { g with more := g.more ++ text } after
        else pass indent fuel { g with spaces := [], first := text, broken := true } after
      else .ok (g, c)

end Gap

/-! ## Plain scalars -/

/-- A colon here ends a plain scalar, or may not stand in it. -/
def colonFault (flow : Bool) (c : Cursor) : Bool :=
  flow && c.sees ':' && (c.peekAt 1).any fun x => [',', '?', '[', ']', '{', '}'].contains x

/-- An indicator here ends a plain scalar. -/
def endsPlain (flow : Bool) (c : Cursor) : Bool :=
  (c.sees ':' && c.endsAt 1)
    || (flow && c.peek.any fun x => [',', '[', ']', '{', '}'].contains x)

/-- The rest of a word of a plain scalar, in reverse order after `out`. -/
def plainWord (flow : Bool) : (fuel : Nat) → (out : List Char) → Cursor →
    Except Fault (List Char × Cursor)
  | 0, out, c => .ok (out, c)
  | fuel + 1, out, c =>
    match c.peek with
    | none => .ok (out, c)
    | some x =>
      if isGap x || isBreak x then .ok (out, c)
      else if colonFault flow c then .error .strayCharacter
      else if endsPlain flow c then .ok (out, c)
      else plainWord flow fuel (x :: out) (c.skip 1)

/-- The words of a plain scalar from here on. The gap before them joins `out` only if a word
follows. Also whether the scalar was followed by a line break. -/
def plainWords (flow : Bool) (indent : Nat) : (fuel : Nat) → (out : List Char) → Gap → Cursor →
    Except Fault (List Char × Bool × Cursor)
  | 0, out, g, c => .ok (out, g.broken, c)
  | fuel + 1, out, g, c => do
    if c.atDocumentMark || c.sees '#' then return (out, g.broken, c)
    let (word, c₁) ← plainWord flow c.rest.length [] c
    let out₁ := if word.isEmpty then out else word ++ (g.fold.reverse ++ out)
    let g₁ : Gap := if word.isEmpty then g else {}
    if !(c₁.atGap || c₁.atBreak) then return (out₁, g₁.broken, c₁)
    let (g₂, c₂) ← Gap.pass (some indent) c₁.rest.length g₁ c₁
    if !flow && c₂.column < indent then return (out₁, g₂.broken, c₂)
    plainWords flow indent fuel out₁ g₂ c₂

/-- A plain scalar: its text, whether a line break follows it, and what comes after. -/
def plainScalar (flow : Bool) (indent : Nat) (c : Cursor) :
    Except Fault (String × Bool × Cursor) := do
  let (out, broken, after) ← plainWords flow indent (c.rest.length + 1) [] {} c
  return (String.ofList out.reverse, broken, after)

/-! ## Quoted scalars -/

/-- The character an escape with this letter stands for, if it needs no digits. -/
def escapeChar? : Char → Option Char
  | '0' => some (Char.ofNat 0)
  | 'a' => some (Char.ofNat 7)
  | 'b' => some (Char.ofNat 8)
  | 't' => some '\t'
  | '\t' => some '\t'
  | 'n' => some '\n'
  | 'v' => some (Char.ofNat 11)
  | 'f' => some (Char.ofNat 12)
  | 'r' => some '\r'
  | 'e' => some (Char.ofNat 27)
  | ' ' => some ' '
  | '"' => some '"'
  | '/' => some '/'
  | '\\' => some '\\'
  | 'N' => some (Char.ofNat 0x85)
  | '_' => some (Char.ofNat 0xA0)
  | 'L' => some (Char.ofNat 0x2028)
  | 'P' => some (Char.ofNat 0x2029)
  | _ => none

/-- How many hexadecimal digits an escape with this letter takes. -/
def escapeWidth? : Char → Option Nat
  | 'x' => some 2
  | 'u' => some 4
  | 'U' => some 8
  | _ => none

/-- The escape at a backslash, and what follows it. -/
def escape (c : Cursor) : Except Fault (Char × Cursor) :=
  match c.peekAt 1 with
  | none => .error .badEscape
  | some letter =>
    match escapeChar? letter, escapeWidth? letter with
    | some x, _ => .ok (x, c.skip 2)
    | none, some width =>
      let digits := (c.rest.drop 2).take width
      if digits.length < width then .error .badEscape
      else
        match digitsIn? 16 digits with
        | none => .error .badEscape
        | some n =>
          if (0xD800 ≤ n && n ≤ 0xDFFF) || 0x10FFFF < n then .error .badEscape
          else .ok (Char.ofNat n, c.skip (2 + width))
    | none, none => .error .badEscape

/-- A run of a quoted scalar up to a gap or the closing quote, in reverse order after `out`. The
flag says that an escaped line break ended it. -/
def quotedWord (single : Bool) : (fuel : Nat) → (out : List Char) → Cursor →
    Except Fault (List Char × Bool × Cursor)
  | 0, out, c => .ok (out, false, c)
  | fuel + 1, out, c =>
    match c.peek with
    | none => .ok (out, false, c)
    | some x =>
      if isGap x || isBreak x then .ok (out, false, c)
      else if single then
        if x == '\'' then
          if c.peekAt 1 == some '\'' then quotedWord single fuel ('\'' :: out) (c.skip 2)
          else .ok (out, false, c)
        else quotedWord single fuel (x :: out) (c.skip 1)
      else if x == '"' then .ok (out, false, c)
      else if x == '\\' then
        if (c.peekAt 1).any isBreak then .ok (out, true, (c.skip 1).dropBreak)
        else do
          let (y, after) ← escape c
          quotedWord single fuel (y :: out) after
      else quotedWord single fuel (x :: out) (c.skip 1)

/-- The rest of a quoted scalar. -/
def quotedWords (single : Bool) : (fuel : Nat) → (out : List Char) → Cursor →
    Except Fault (List Char × Cursor)
  | 0, _, _ => .error .unclosedQuote
  | fuel + 1, out, c => do
    if c.atDocumentMark || c.atEnd then throw .unclosedQuote
    let (out₁, joined, c₁) ← quotedWord single c.rest.length out c
    if c₁.sees (if single then '\'' else '"') then return (out₁, c₁.skip 1)
    let start : Gap := if joined then { broken := true } else {}
    let (g, c₂) ← Gap.pass none c₁.rest.length start c₁
    quotedWords single fuel (g.fold.reverse ++ out₁) c₂

/-- A quoted scalar from its opening quote. -/
def quotedScalar (single : Bool) (c : Cursor) : Except Fault (String × Cursor) := do
  let (out, after) ← quotedWords single (c.rest.length + 1) [] (c.skip 1)
  return (String.ofList out.reverse, after)

/-! ## Block scalars -/

/-- What becomes of the line breaks at the end of a block. -/
inductive Chomping where
  | strip
  | clip
  | keep
deriving DecidableEq

/-- The indicators after `|` or `>`: how the end is chomped, and an explicit indentation. -/
def blockHeader (c : Cursor) : Except Fault (Chomping × Option Nat × Cursor) := do
  let chomping? (c : Cursor) : Option Chomping :=
    if c.sees '+' then some .keep else if c.sees '-' then some .strip else none
  let digit? (c : Cursor) : Except Fault (Option Nat) :=
    match c.peek with
    | some x =>
      if x == '0' then .error .badBlockHeader
      else if x.isDigit then .ok (some (x.toNat - 48)) else .ok none
    | none => .ok none
  let (chomping, width, c₁) ← match chomping? c with
    | some ch => do
      let width ← digit? (c.skip 1)
      pure (ch, width, if width.isSome then c.skip 2 else c.skip 1)
    | none => do
      match ← digit? c with
      | some n =>
        match chomping? (c.skip 1) with
        | some ch => pure (ch, some n, c.skip 2)
        | none => pure (Chomping.clip, some n, c.skip 1)
      | none => pure (Chomping.clip, none, c)
  let c₂ := c₁.drop isGap
  let c₃ := if c₂.sees '#' then c₂.drop (!isBreak ·) else c₂
  if !c₃.atBreakOrEnd then throw .badBlockHeader
  return (chomping, width, c₃.dropBreak)

/-- Pass indentation and empty lines before a line of a block. `indent` is the block's column, or
zero while it is not yet known; `deepest` is the deepest column met. The line breaks are added to
`breaks`. -/
def blockGap (indent : Nat) : (fuel : Nat) → (deepest : Nat) → (breaks : List Char) → Cursor →
    Except Fault (Nat × List Char × Cursor)
  | 0, deepest, breaks, c => .ok (deepest, breaks, c)
  | fuel + 1, deepest, breaks, c => do
    let run := (c.rest.takeWhile (· == ' ')).length
    let spaces := if indent == 0 then run else min run (indent - c.column)
    let c₁ := c.skip spaces
    let deepest₁ := max deepest c₁.column
    if (indent == 0 || c₁.column < indent) && c₁.sees '\t' then throw .tabIndentation
    if !c₁.atBreak then return (deepest₁, breaks, c₁)
    let (text, c₂) := c₁.takeBreak
    blockGap indent fuel deepest₁ (breaks ++ text) c₂

/-- The lines of a block at column `indent`. `lead` is the line break before the current line,
`breaks` those after it, `blank` whether the line before began with a gap. -/
def blockLines (literal : Bool) (indent : Nat) : (fuel : Nat) → (out lead breaks : List Char) →
    (blank : Bool) → Cursor → Except Fault (List Char × List Char × List Char × Cursor)
  | 0, out, lead, breaks, _, c => .ok (out, lead, breaks, c)
  | fuel + 1, out, lead, breaks, blank, c => do
    if c.column != indent || c.atEnd then return (out, lead, breaks, c)
    let starts := c.atGap
    let folded := !literal && lead == ['\n'] && !blank && !starts
    let joint := if folded then (if breaks.isEmpty then [' '] else []) else lead
    let (line, c₁) := c.take (!isBreak ·)
    let out₁ := line.reverse ++ (breaks.reverse ++ (joint.reverse ++ out))
    let (lead₁, c₂) := c₁.takeBreak
    let (_, breaks₁, c₃) ← blockGap indent c₂.rest.length 0 [] c₂
    blockLines literal indent fuel out₁ lead₁ breaks₁ starts c₃

/-- A block scalar from its indicator, below a construct at column `parent` (`-1` at the top). -/
def blockScalar (literal : Bool) (parent : Int) (c : Cursor) : Except Fault (String × Cursor) := do
  let (chomping, width, c₁) ← blockHeader (c.skip 1)
  let fixed : Nat := match width with
    | some n => ((max parent 0) + n).toNat
    | none => 0
  let (deepest, breaks, c₂) ← blockGap fixed (c₁.rest.length + 1) 0 [] c₁
  let indent : Nat :=
    if fixed == 0 then max deepest (max (parent + 1) 1).toNat else fixed
  let (out, lead, tail, c₃) ← blockLines literal indent (c₂.rest.length + 1) [] [] breaks false c₂
  let finish := match chomping with
    | .strip => []
    | .clip => lead
    | .keep => lead ++ tail
  return (String.ofList (out.reverse ++ finish), c₃)

end LayeredConfig.Yaml
