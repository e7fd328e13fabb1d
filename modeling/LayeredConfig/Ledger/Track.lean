import LayeredConfig.Digest.Sha256
import LayeredConfig.Ledger.Basic
import LayeredConfig.Packages

/-!
# Keeping a ledger

Recording what the host knows of a path, and asking it later whether anything recorded has changed:
a file is gone or newer, or something that was missing has appeared.
-/

namespace LayeredConfig

variable {m : Type → Type} [Monad m] [Host m]

/-- What the version control system says of the directory a path lies in, or of the path if it is a
directory. Each directory is asked about once. -/
def gitInfo (path : FilePath) : m (Option GitInfo) := do
  let status ← Host.status path
  let real ← if status.isSome then Host.normalize path else pure path
  let dir := if status.any (·.isDirectory) then some real else real.parent?
  match dir with
  | none => return none
  | some dir =>
    let (info, memo) ← (← Host.gitMemo).ask dir probeGit
    Host.keepGitMemo memo
    return info
where
  /-- Ask about a directory. -/
  probeGit (dir : FilePath) : m (Option GitInfo) := do
    match ← Host.git dir .branch with
    | none => return none
    | some branch =>
      return GitInfo.ofAnswers (some branch) (← Host.git dir .describe) (← Host.git dir .remotes)

namespace Record

/-- What is known of a file or directory at a path in normal form. -/
def observe (path : FilePath) (attributes : Named String) : m Record := do
  match ← Host.status path with
  | none => return { blank with missing := true, attributes := attributes }
  | some status =>
    let hash ← if status.isDirectory then pure none
      else do
        let content ← Host.read path
        pure (content.toOption.map Sha256.hex)
    let git ← gitInfo path
    return { blank with
      modified := status.modified.epochSeconds
      date := some status.modified.calendarText
      hash := hash
      git := git
      attributes := attributes }

end Record

namespace Ledger

/-- What to record of a path. -/
inductive Mark where
  /-- All that is known of it. -/
  | observed
  /-- That another entry stands for it. -/
  | pointer (origin : FilePath)
  /-- That it is missing. -/
  | missing
deriving DecidableEq, Repr

/-- Record a path, unless it is recorded. -/
def track (l : Ledger) (path : FilePath) (mark : Mark) (attributes : Named String) :
    m Ledger := do
  let path ← Host.normalize path
  if l.has path then return l
  let record ← match mark with
    | .observed => Record.observe path attributes
    | .pointer origin => do
      pure { Record.pointer (← Host.normalize origin) with attributes := attributes }
    | .missing => pure { Record.blank with missing := true, attributes := attributes }
  return l.addRecord path record

/-- Record all that is known of a path, unless it is recorded. -/
def add (l : Ledger) (path : FilePath) : m Ledger := l.track path .observed []

/-- Note an optional file that was not found, unless it is noted. -/
def miss (l : Ledger) (path origin : FilePath) (package : Option String) (file : Option FilePath) :
    m Ledger := do
  let path ← if package.isSome then pure path else Host.normalize path
  return l.addMissed ⟨path, ← Host.normalize origin, package, file⟩

/-- Let a directory stand for all recorded paths that match some of the patterns, and record it. -/
def collapse (l : Ledger) (patterns : List String) (directory : FilePath)
    (attributes : Named String) : m (Except Glob.Fault Ledger) := do
  let directory ← Host.normalize directory
  match pointTo patterns directory l.records with
  | .error fault => return .error fault
  | .ok records =>
    return .ok (← Ledger.track { l with records := records } directory .observed attributes)

/-! ## Changes -/

/-- What a record says of its path no longer holds, or the path was changed after the reference. -/
def isStale (reference : Binary64) (path : FilePath) (record : Record) : m Bool := do
  match ← Host.modified path with
  | none => return !record.missing
  | some t => return record.missing || reference.lt t.epochSeconds

/-- Something is where an optional file was not found. -/
def hasAppeared (packages : Packages) (miss : Missed) : m Bool := do
  let target ← match miss.package, miss.file with
    | some package, some file => packages.resolve package file
    | some _, none => pure none
    | none, _ => pure (some miss.path)
  match target with
  | some target => Host.isPresent target
  | none => return false

/-- Some record is stale. -/
def anyStale (reference : Binary64) : List (FilePath × Record) → m Bool
  | [] => return false
  | (path, record) :: rest => do
    if ← isStale reference path record then return true else anyStale reference rest

/-- Some missed file has appeared. -/
def anyAppeared (packages : Packages) : List (FilePath × Missed) → m Bool
  | [] => return false
  | (_, miss) :: rest => do
    if ← hasAppeared packages miss then return true else anyAppeared packages rest

/-- Something recorded here has changed after an instant. -/
def hasChanged (l : Ledger) (reference : Instant) (packages : Packages) : m Bool := do
  if ← anyStale reference.epochSeconds l.records then return true
  else anyAppeared packages l.missed

end Ledger

end LayeredConfig
