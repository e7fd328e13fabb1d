import LayeredConfig.Directive
import LayeredConfig.Glob.Pattern
import LayeredConfig.Schema

/-!
# Errors

What can go wrong while configuration is loaded, stored and listed, and what is said about it.
-/

namespace LayeredConfig

/-- Why the file system refuses something. -/
inductive SystemFault where
  | missing
  | exists
  | notDirectory
  | isDirectory
  | nameTooLong
  | notEmpty
  | badName
  /-- The content is not text. -/
  | notText
  | other (message : String)
deriving DecidableEq, Repr

/-- What the system says. -/
def SystemFault.message : SystemFault → String
  | .missing => "No such file or directory (os error 2)"
  | .exists => "File exists (os error 17)"
  | .notDirectory => "Not a directory (os error 20)"
  | .isDirectory => "Is a directory (os error 21)"
  | .nameTooLong => "File name too long (os error 36)"
  | .notEmpty => "Directory not empty (os error 39)"
  | .badName => "file name contained an unexpected NUL byte"
  | .notText => "stream did not contain valid UTF-8"
  | .other message => message

/-- Why a node of a document cannot be resolved. -/
inductive Unresolved where
  | directive (fault : Directive.Fault)
  /-- Substitutions follow each other without end. -/
  | tooManySubstitutions
  /-- The files include each other. -/
  | cycle (chain : List FilePath)
  /-- The included file holds something other than a mapping. -/
  | notMapping (file : FilePath)
  /-- A file is missing at all the places it was looked for. -/
  | notFound (entry : String) (searched : List FilePath)
  /-- The package of a file is missing. -/
  | noPackage (entry package : String)
  | unknownSection (name : String)
  | sectionNotMapping (name : String)
  /-- The document unfolds deeper than any bound taken from its size. -/
  | unbounded
deriving DecidableEq, Repr

/-- How many substitutions may follow each other at a node, and how deep reused sections may reuse
others. -/
def substitutionLimit : Nat := 20

/-- What is said about it. -/
def Unresolved.message : Unresolved → String
  | .directive fault => fault.message
  | .tooManySubstitutions =>
    "recursion limit of " ++ toString substitutionLimit ++ " substitutions exceeded"
  | .cycle chain => "include cycle: " ++ String.intercalate " -> " (chain.map FilePath.text)
  | .notMapping file => "included file " ++ file.text ++ " does not contain a mapping"
  | .notFound entry searched =>
    "include '" ++ entry ++ "' not found (searched: "
      ++ String.intercalate ", " (searched.map FilePath.text) ++ ")"
  | .noPackage entry package =>
    "include '" ++ entry ++ "' not found (searched: package '" ++ package ++ "' not found)"
  | .unknownSection name => "unknown section '" ++ name ++ "' in " ++ Directive.useKey
  | .sectionNotMapping name =>
    "section '" ++ name ++ "' used by " ++ Directive.useKey ++ " is not a mapping"
  | .unbounded => "the document unfolds without end"

/-- What can go wrong. -/
inductive Error where
  /-- A node of a document cannot be resolved. -/
  | unresolved (file : FilePath) (location : String) (reason : Unresolved)
  /-- A section does not fit what it has to be. -/
  | unfit (file : FilePath) (message : String)
  /-- A file is no document. -/
  | unreadable (file : FilePath)
  /-- An entry of the cache cannot be managed. -/
  | cache (message : String)
  | system (fault : SystemFault)
  /-- A text is not the record it should be. -/
  | record (fault : Yaml.Fault)
  /-- A record cannot be written. -/
  | unwritable (obstacle : Yaml.Obstacle)
  | pattern (fault : Glob.Fault)
deriving DecidableEq, Repr

namespace Error

/-- The message of an error at a node of a document. -/
def atNode (file location message : String) : String :=
  let place := if location.isEmpty then "<root>" else location
  file ++ ": error resolving '" ++ place ++ "': " ++ message

/-- The message of an error about a section. -/
def inSection (file message : String) : String := "Schema error in " ++ file ++ ": " ++ message

/-- What is said about an error. -/
def message : Error → String
  | .unresolved file location reason => atNode file.text location reason.message
  | .unfit file text => inSection file.text text
  | .unreadable file => "Failed to parse " ++ file.text
  | .cache text => "Cache operation error: " ++ text
  | .system fault => "I/O error: " ++ fault.message
  | .record _ => "YAML error"
  | .unwritable obstacle => "YAML error: " ++ obstacle.message
  | .pattern fault => "Glob pattern error: " ++ fault.message

/-- The messages of an error and of what caused it, outermost first. -/
def chain (e : Error) : List String :=
  match e with
  | .system fault => [e.message, fault.message]
  | .pattern fault => [e.message, fault.message]
  | _ => [e.message]

end Error

end LayeredConfig
