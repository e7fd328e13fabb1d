import LayeredConfig.Path.File

/-!
# Patterns of paths

A pattern is a sequence of characters, `?` for any character, `*` for any characters, `[…]` for
one of some characters, `[!…]` for any other, and `**` between slashes for any number of whole
directories. `Pattern.parse` reads one, or says at which character it is malformed.

A pattern matches a whole text. Nothing is special about slashes and leading dots here: `?` and
`*` match them as any other character.
-/

namespace LayeredConfig.Glob

/-- A range of characters, ends included. -/
structure CharRange where
  first : Char
  last : Char
deriving DecidableEq, Repr

/-- The character lies in the range. -/
def CharRange.has (r : CharRange) (c : Char) : Bool := decide (r.first ≤ c) && decide (c ≤ r.last)

/-- A part of a pattern. -/
inductive Token where
  | char (c : Char)
  | anyChar
  | anyText
  /-- Any number of directories. -/
  | anyDirectories
  | within (ranges : List CharRange)
  | except (ranges : List CharRange)
deriving DecidableEq, Repr

/-- What is wrong with a pattern. -/
inductive Reason where
  | wildcards
  | recursiveWildcards
  | range
deriving DecidableEq, Repr

/-- What is said about it. -/
def Reason.message : Reason → String
  | .wildcards => "wildcards are either regular `*` or recursive `**`"
  | .recursiveWildcards => "recursive wildcards must form a single path component"
  | .range => "invalid range pattern"

/-- Where a pattern is malformed, and why. -/
structure Fault where
  position : Nat
  reason : Reason
deriving DecidableEq, Repr

/-- What is said about a malformed pattern. -/
def Fault.message (f : Fault) : String :=
  "Pattern syntax error near position " ++ toString f.position ++ ": " ++ f.reason.message

/-- A pattern. -/
abbrev Pattern := List Token

namespace Pattern

/-! ## Reading -/

/-- What stands between brackets. -/
def ranges : List Char → List CharRange
  | a :: '-' :: b :: rest => ⟨a, b⟩ :: ranges rest
  | a :: rest => ⟨a, a⟩ :: ranges rest
  | [] => []

/-- A bracket's content and how many characters it and the closing bracket take. The content has
at least one character, which may be a closing bracket. -/
def bracket? (s : List Char) : Option (List Char × Nat) :=
  match s with
  | [] => none
  | c :: rest =>
    let more := rest.takeWhile (· != ']')
    if more.length < rest.length then some (c :: more, more.length + 2) else none

/-- Read on, `position` characters into the pattern and behind the character `before`. -/
def read (position : Nat) (before : Option Char) : List Char → Except Fault Pattern
  | [] => .ok []
  | '?' :: rest => do return .anyChar :: (← read (position + 1) (some '?') rest)
  | '*' :: '*' :: '*' :: _ => .error ⟨position + 2, .wildcards⟩
  | '*' :: '*' :: rest =>
    if before.all (· == '/') then
      match rest with
      | [] => .ok [.anyDirectories]
      | '/' :: rest => do return .anyDirectories :: (← read (position + 3) (some '/') rest)
      | _ => .error ⟨position + 2, .recursiveWildcards⟩
    else .error ⟨position - 1, .recursiveWildcards⟩
  | '*' :: rest => do return .anyText :: (← read (position + 1) (some '*') rest)
  | '[' :: '!' :: rest =>
    match bracket? rest with
    | some (content, taken) => do
      return .except (ranges content) ::
        (← read (position + 2 + taken) (some ']') (rest.drop taken))
    | none => .error ⟨position, .range⟩
  | '[' :: rest =>
    match bracket? rest with
    | some (content, taken) => do
      return .within (ranges content) ::
        (← read (position + 1 + taken) (some ']') (rest.drop taken))
    | none => .error ⟨position, .range⟩
  | c :: rest => do return .char c :: (← read (position + 1) (some c) rest)
termination_by s => s.length
decreasing_by all_goals simp_wf <;> omega

/-- Read a pattern. -/
def parse (text : String) : Except Fault Pattern := read 0 none text.toList

/-! ## Matching -/

/-- How a pattern and a text compare. -/
inductive Outcome where
  | agrees
  | differs
  /-- The text ended before the pattern. It does so too if a wildcard before takes more of it. -/
  | tooShort
deriving DecidableEq, Repr

/-- The token stands for this one character. -/
def Token.takes (c : Char) : Token → Bool
  | .char d => c == d
  | .anyChar => true
  | .within rs => rs.any (·.has c)
  | .except rs => !rs.any (·.has c)
  | _ => false

/-- Try the rest of a pattern behind ever more characters of the text, up to the whole of it. Before
the end it is tried where `start` says so, and further on behind every character if `everywhere`,
otherwise behind every slash. -/
def seek (everywhere : Bool) (rest : List Char → Outcome) : (start : Bool) → List Char → Outcome
  | _, [] => rest []
  | start, c :: cs =>
    match if start then rest (c :: cs) else .differs with
    | .differs => seek everywhere rest (everywhere || c == '/') cs
    | outcome => outcome

/-- Compare a pattern with a text. -/
def compare : Pattern → List Char → Outcome
  | [], s => if s.isEmpty then .agrees else .differs
  | .anyText :: rest, s => seek true (compare rest) true s
  | .anyDirectories :: rest, s => seek false (compare rest) true s
  | token :: rest, s =>
    match s with
    | [] => .tooShort
    | c :: cs => if Token.takes c token then compare rest cs else .differs

/-- The pattern matches the whole text. -/
def isMatch (p : Pattern) (text : String) : Bool := compare p text.toList == .agrees

/-- The text a pattern without wildcards stands for. -/
def literal? : Pattern → Option (List Char)
  | [] => some []
  | .char c :: rest => (literal? rest).map (c :: ·)
  | _ => none

/-- The pattern stands for any number of directories. -/
def isRecursive (p : Pattern) : Bool := p.contains .anyDirectories

end Pattern

end LayeredConfig.Glob
