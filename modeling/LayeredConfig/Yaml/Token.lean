/-!
# Tokens of YAML

The lexical units of a document: structure indicators, including those that stand for a change of
indentation, and scalars with the style they are written in.

`Fault` says what is wrong with a text that is not a document. Readers of a whole document only
ask whether there is one.
-/

namespace LayeredConfig.Yaml

/-- How a scalar is written. -/
inductive Style where
  | plain
  | singleQuoted
  | doubleQuoted
  | literal
  | folded
deriving DecidableEq, Repr, Inhabited

/-- A lexical unit. -/
inductive Token where
  | streamEnd
  | version (major minor : Nat)
  | tagDirective (handle lead : String)
  | documentStart
  | documentEnd
  | blockSequenceStart
  | blockMappingStart
  | blockEnd
  | flowSequenceStart
  | flowSequenceEnd
  | flowMappingStart
  | flowMappingEnd
  | blockEntry
  | flowEntry
  | key
  | value
  | alias (name : String)
  | anchor (name : String)
  | tag (handle suffix : String)
  | scalar (text : String) (style : Style)
deriving DecidableEq, Repr, Inhabited

/-- Why a text is not a document. -/
inductive Fault where
  /-- A character that may not stand in a document. -/
  | forbiddenCharacter
  /-- A character that begins no token. -/
  | strayCharacter
  /-- Something that may not stand at this indentation or in this context. -/
  | misplaced
  /-- A key that had to be followed by a colon. -/
  | missingColon
  | badDirective
  | badAnchor
  | badTag
  | badEscape
  | unclosedQuote
  | badBlockHeader
  | tabIndentation
  /-- The token cannot stand here. -/
  | unexpectedToken
  | undefinedTagHandle
  | undefinedAlias
  /-- No document, or more than one. -/
  | notOneDocument
  | tooDeep
  | tooManyAliases
  | duplicateKey
  | wrongKind
  | missingField
deriving DecidableEq, Repr, Inhabited

end LayeredConfig.Yaml
