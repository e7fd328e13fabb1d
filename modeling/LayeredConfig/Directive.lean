import LayeredConfig.Text.Lower
import LayeredConfig.Yaml.Writer

/-!
# Directives

Four keys of a mapping are directives. `_include` names files whose content goes beneath the
mapping, `_use` names sections that do, and `_flatten` and `_flatten_sep` say how what is pulled in
is flattened first. Values of the first two are one text or a list of texts.

An entry of `_include` is a path, with a package in parentheses before it or flags in brackets
behind it: `(package)cabs/file.yml [optional, warn]`. An optional file may be missing; `warn` asks
for a warning then, and makes the file optional too.
-/

namespace LayeredConfig

namespace Directive

/-- Pulls in files. -/
def includeKey : String := "_include"

/-- Pulls in sections. -/
def useKey : String := "_use"

/-- The depth of flattening. -/
def flattenKey : String := "_flatten"

/-- The separator of flattened keys. -/
def separatorKey : String := "_flatten_sep"

/-- The key is a text that begins with an underscore. -/
def isKey (key : Tree) : Bool := key.asText?.any fun s => s.toList.head? == some '_'

mutual

/-- Some mapping in the tree, not under a tag, has a directive key. -/
def occursIn : Tree → Bool
  | .map es => occursInEntries es
  | .seq items => occursInItems items
  | _ => false

/-- A key is a directive, or a value has one. -/
def occursInEntries : List (Tree × Tree) → Bool
  | [] => false
  | (k, v) :: rest => isKey k || occursIn v || occursInEntries rest

/-- An item has a directive. -/
def occursInItems : List Tree → Bool
  | [] => false
  | t :: rest => occursIn t || occursInItems rest

end

/-! ## Lists of names -/

/-- Why a directive's value cannot be used. -/
inductive Fault where
  /-- The value under `key` is neither a text nor a list. -/
  | notNames (key kind : String)
  /-- An item of the list under `key` is no text. -/
  | notName (key kind : String)
  /-- The depth is a number, but not a natural one. -/
  | negativeDepth (text : String)
  | depthKind (kind : String)
  | separatorKind (kind : String)
  | unknownFlag (flag entry : String)
  | emptyPath (entry : String)
deriving DecidableEq, Repr

/-- What is said about it. -/
def Fault.message : Fault → String
  | .notNames key kind => key ++ " must be a string or a list of strings, got " ++ kind
  | .notName key kind => key ++ " entries must be strings, got " ++ kind
  | .negativeDepth text => flattenKey ++ " must be a non-negative integer, got " ++ text
  | .depthKind kind => flattenKey ++ " must be an integer, got " ++ kind
  | .separatorKind kind => separatorKey ++ " must be a string, got " ++ kind
  | .unknownFlag flag entry => "unknown include flag '" ++ flag ++ "' in '" ++ entry ++ "'"
  | .emptyPath entry => "empty include path in '" ++ entry ++ "'"

/-- The names a directive's value lists. -/
def names (key : String) : Tree → Except Fault (List String)
  | .str s => .ok [s]
  | .seq items => items.mapM fun
    | .str s => .ok s
    | other => .error (.notName key other.kind)
  | other => .error (.notNames key other.kind)

end Directive

/-! ## Entries of `_include` -/

/-- An entry of `_include`. -/
structure IncludeEntry where
  path : String
  /-- The package the path belongs to. -/
  package : Option String
  /-- The file may be missing. -/
  optional : Bool
  /-- Warn if it is. -/
  warn : Bool
deriving DecidableEq, Repr

namespace IncludeEntry

/-- The text before a bracketed group at the end, without white space around it, and what the
brackets hold. The text before may not have a line break. -/
def cutFlags? (s : List Char) : Option (List Char × List Char) :=
  match s.reverse with
  | ']' :: before =>
    let content := before.takeWhile fun c => c != '[' && c != ']'
    match before.drop content.length with
    | '[' :: lead =>
      let path := (lead.dropWhile Text.isBlank).reverse
      if path.contains '\n' then none else some (path, content.reverse)
    | _ => none
  | _ => none

/-- A group in parentheses at the start and what follows it, neither of them empty. What follows
may not have a line break. -/
def cutPackage? (s : List Char) : Option (List Char × List Char) :=
  match s with
  | '(' :: rest =>
    let name := rest.takeWhile fun c => c != '(' && c != ')'
    match rest.drop name.length with
    | ')' :: path =>
      if name.isEmpty || path.isEmpty || path.contains '\n' then none else some (name, path)
    | _ => none
  | _ => none

/-- The flags `(optional, warn)` of a list of flag words. -/
def flags (entry : String) : List (List Char) → Except Directive.Fault (Bool × Bool)
  | [] => .ok (false, false)
  | word :: rest =>
    let word := Text.lowered (String.ofList (Text.trimBoth word))
    if word == "optional" then do return (true, (← flags entry rest).2)
    else if word == "warn" then do
      let _ ← flags entry rest
      return (true, true)
    else if word.isEmpty then flags entry rest
    else .error (.unknownFlag word entry)

/-- Read an entry. -/
def parse (entry : String) : Except Directive.Fault IncludeEntry := do
  let whole := Text.trimBoth entry.toList
  let (text, optional, warn) ← match cutFlags? whole with
    | some (text, words) => do
      let set ← flags entry (Text.splitAt (· == ',') words)
      pure (text, set)
    | none => pure (whole, false, false)
  let (package, path) := match cutPackage? text with
    | some (name, path) => (some (String.ofList (Text.trimBoth name)), Text.trimBoth path)
    | none => (none, text)
  if path.isEmpty then throw (.emptyPath entry)
  return ⟨String.ofList path, package, optional, warn⟩

end IncludeEntry

/-! ## Flattening -/

/-- How what a mapping pulls in is flattened. -/
structure Flattening where
  depth : Nat
  separator : String
deriving DecidableEq, Repr

namespace Flattening

/-- No flattening. -/
def none : Flattening := ⟨0, "__"⟩

/-- The depth a value of `_flatten` asks for. -/
def depthOf : Tree → Except Directive.Fault Nat
  | .int i => if 0 ≤ i then .ok i.toNat else .error (.negativeDepth (toString i))
  | .float x => .error (.negativeDepth (Yaml.floatLayout.write x))
  | .null => .ok 0
  | other => .error (.depthKind other.kind)

/-- The separator a value of `_flatten_sep` asks for. -/
def separatorOf : Tree → Except Directive.Fault String
  | .str s => .ok s
  | other => .error (.separatorKind other.kind)

/-- Take the flattening off a mapping: what is left of it, and the flattening. A bad depth is found
before the separator is taken. -/
def take (es : Entries) : Entries × Except Directive.Fault Flattening :=
  let afterDepth := Entries.erase es (.str Directive.flattenKey)
  let depth := match Entries.get? es (.str Directive.flattenKey) with
    | some value => depthOf value
    | Option.none => .ok none.depth
  match depth with
  | .error fault => (afterDepth, .error fault)
  | .ok depth =>
    let separator := match Entries.get? es (.str Directive.separatorKey) with
      | some value => separatorOf value
      | Option.none => .ok none.separator
    (Entries.erase afterDepth (.str Directive.separatorKey), separator.map fun s => ⟨depth, s⟩)

end Flattening

end LayeredConfig
