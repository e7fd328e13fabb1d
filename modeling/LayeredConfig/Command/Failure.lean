import LayeredConfig.Error
import LayeredConfig.JsonText
import LayeredConfig.Time

/-!
# Failures

Why a command fails, and what is said about it: the messages of the failure and of its causes, the
outermost first.
-/

namespace LayeredConfig

/-- Why a command fails. -/
inductive Failure where
  /-- A file of sections cannot be loaded. -/
  | load (file : FilePath) (cause : Error)
  /-- The file cannot be resolved. -/
  | resolve (file : FilePath) (cause : Error)
  /-- The schema cannot be loaded. -/
  | schema (file : FilePath) (cause : Error)
  /-- Files cannot be loaded as sections. -/
  | sections (cause : Error)
  /-- The files of a pattern cannot be loaded as sections. -/
  | sectionsOf (pattern : String) (cause : Error)
  /-- One pattern of several is none. -/
  | pattern (text : String) (fault : Glob.Fault)
  /-- The result has no text as YAML. -/
  | yaml (obstacle : Yaml.Obstacle)
  /-- The result has no text as JSON. -/
  | json (fault : JsonText.KeyFault)
  /-- The ledger cannot be written. -/
  | ledger (file : FilePath) (cause : Error)
  /-- A text is no length of time. -/
  | duration (text : String) (fault : Span.Fault)
  /-- The entries of a cache cannot be listed. -/
  | cache (root : FilePath) (cause : Error)
  /-- Nothing says which entries are to be removed. -/
  | noFilter
  /-- Some entries could not be removed. -/
  | undeleted (count : Nat)
deriving DecidableEq, Repr

namespace Failure

/-- The message that a result has no text as JSON. -/
def jsonMessage : String := "Failed to render JSON (mapping keys must be strings)"

/-- The message that a result has no text as YAML. -/
def yamlMessage : String := "Failed to render YAML"

/-- The messages of a failure and of its causes, the outermost first. -/
def chain : Failure → List String
  | .load file cause => ("Failed to load " ++ file.text) :: cause.chain
  | .resolve file cause => ("Failed to resolve " ++ file.text) :: cause.chain
  | .schema file cause => ("Failed to load schema " ++ file.text) :: cause.chain
  | .sections cause => "Failed to load sections" :: cause.chain
  | .sectionsOf input cause => ("Failed to load sections from " ++ input) :: cause.chain
  | .pattern text fault => ["Invalid pattern '" ++ text ++ "'", fault.message]
  | .yaml obstacle => [yamlMessage, obstacle.message]
  | .json fault => [jsonMessage, fault.message]
  | .ledger file cause => ("Failed to write " ++ file.text) :: cause.chain
  | .duration text fault =>
    ("Invalid duration format: '" ++ text
      ++ "'. Expected format: number followed by unit (s, m, h, d, w)") :: fault.chain
  | .cache root cause => ("Failed to read cache " ++ root.text) :: cause.chain
  | .noFilter =>
    ["No filter specified. Use --all to remove every entry or --older-than DURATION"]
  | .undeleted count => ["Failed to delete " ++ toString count ++ " cache entries"]

end Failure

end LayeredConfig
