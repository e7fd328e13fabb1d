import LayeredConfig.Path.Section
import LayeredConfig.Tree.Merge
import LayeredConfig.Yaml.Writer

/-!
# Schemas

A `Schema` is a tree of defaults. A section fits it if each of its values is of the kind of the
default in its place: a null on either side fits anything, and an integer fits a float. A strict
schema knows all the keys a section may have. Applying a schema lays a fitting section over the
defaults.
-/

namespace LayeredConfig

/-- Defaults that sections are laid over. -/
structure Schema where
  defaults : Tree
  /-- Keys without a default are refused. -/
  strict : Bool

namespace Schema

/-- Why a section does not fit. -/
inductive Mismatch where
  | wrongKind (location expected actual : String)
  | unknownField (location : String)
deriving DecidableEq, Repr

/-- What is said about it. -/
def Mismatch.message : Mismatch → String
  | .wrongKind location expected actual =>
    let place := if location.isEmpty then "<root>" else location
    "'" ++ place ++ "' should be a " ++ expected ++ ", got " ++ actual
  | .unknownField location => "unknown field '" ++ location ++ "'"

/-- The kinds of two values that are not both mappings fit. -/
def fits : (expected actual : Tree) → Bool
  | .null, _ => true
  | _, .null => true
  | .float _, .float _ => true
  | .float _, .int _ => true
  | .int _, .int _ => true
  | .bool _, .bool _ => true
  | .str _, .str _ => true
  | .seq _, .seq _ => true
  | .tagged _ _, .tagged _ _ => true
  | _, _ => false

/-- The mismatch of two values whose kinds do not fit. -/
def compareKinds (location : String) (expected actual : Tree) : Except Mismatch Unit :=
  if fits expected actual then .ok ()
  else .error (.wrongKind location expected.kind actual.kind)

mutual

/-- Find the first mismatch of a value at a location. -/
def check (strict : Bool) (location : String) (expected : Tree) : (actual : Tree) →
    Except Mismatch Unit
  | .map es =>
    match expected with
    | .map slots => checkEntries strict location slots es
    | expected => compareKinds location expected (.map es)
  | actual => compareKinds location expected actual
termination_by structural actual => actual

/-- Find the first mismatch among entries. -/
def checkEntries (strict : Bool) (location : String) (slots : List (Tree × Tree)) :
    (es : List (Tree × Tree)) → Except Mismatch Unit
  | [] => .ok ()
  | (key, value) :: rest =>
    let child := SectionPath.childLabel location (Yaml.keyText key)
    match Entries.get? slots key with
    | some slot =>
      match check strict child slot value with
      | .ok () => checkEntries strict location slots rest
      | .error m => .error m
    | none =>
      if strict then .error (.unknownField child) else checkEntries strict location slots rest
termination_by structural es => es

end

/-- The section over the defaults, if it fits. -/
def apply (s : Schema) (given : Tree) : Except Mismatch Tree := do
  check s.strict "" s.defaults given
  return s.defaults.merge given

end Schema

end LayeredConfig
