import LayeredConfig.Error
import LayeredConfig.Git
import LayeredConfig.Time

/-!
# What a load asks of its surroundings

`Host m` lists the questions and requests that loading configuration puts to the machine it runs
on: files and directories, the clock, the version control system, and where warnings go. Everything
else in this library is a function of the answers. `World` is a host in memory.
-/

namespace LayeredConfig

/-- What is known of a file or directory. -/
structure Status where
  isDirectory : Bool
  modified : Instant
  size : Nat
deriving DecidableEq, Repr

/-- The surroundings of a load. -/
class Host (m : Type → Type) where
  /-- The working directory, which relative paths start from. -/
  directory : m FilePath
  /-- The file of the running program. -/
  program : m (Option FilePath)
  /-- A text that no other running program has. -/
  token : m String
  /-- More files than this never include one another in a chain. -/
  fileBound : m Nat
  /-- The file or directory at a path, if there is one. -/
  status : FilePath → m (Option Status)
  /-- The content of a file. -/
  read : FilePath → m (Except SystemFault ByteArray)
  /-- The names in a directory. -/
  list : FilePath → m (Except SystemFault (List String))
  /-- Write a file, new or over an old one. -/
  write : FilePath → ByteArray → m (Except SystemFault Unit)
  /-- Make a directory in an existing one. -/
  makeDirectory : FilePath → m (Except SystemFault Unit)
  /-- Move a file, over an old one if need be. -/
  rename : (source target : FilePath) → m (Except SystemFault Unit)
  /-- Remove a file. -/
  removeFile : FilePath → m (Except SystemFault Unit)
  /-- The document in a file. -/
  document : FilePath → m (Option Tree)
  /-- What the version control system says of a directory. -/
  git : FilePath → GitQuery → m (Option String)
  /-- The answers about version control kept so far. -/
  gitMemo : m GitMemo
  keepGitMemo : GitMemo → m Unit
  now : m Instant
  warn : String → m Unit

namespace Host

/-- What computes on top of a host can ask it all the same. -/
instance (priority := low) lifted {m n : Type → Type} [MonadLift m n] [Host m] : Host n where
  directory := liftM (directory : m _)
  program := liftM (program : m _)
  token := liftM (token : m _)
  fileBound := liftM (fileBound : m _)
  status p := liftM (status p : m _)
  read p := liftM (read p : m _)
  list p := liftM (list p : m _)
  write p bytes := liftM (write p bytes : m _)
  makeDirectory p := liftM (makeDirectory p : m _)
  rename source target := liftM (rename source target : m _)
  removeFile p := liftM (removeFile p : m _)
  document p := liftM (document p : m _)
  git dir query := liftM (git dir query : m _)
  gitMemo := liftM (gitMemo : m _)
  keepGitMemo memo := liftM (keepGitMemo memo : m _)
  now := liftM (now : m _)
  warn text := liftM (warn text : m _)

variable {m : Type → Type} [Monad m] [Host m]

/-- There is a file at the path. -/
def isFile (p : FilePath) : m Bool := do return (← status p).any (!·.isDirectory)

/-- There is a directory at the path. -/
def isDirectory (p : FilePath) : m Bool := do return (← status p).any (·.isDirectory)

/-- There is something at the path. -/
def isPresent (p : FilePath) : m Bool := do return (← status p).isSome

/-- When the file or directory at a path was last changed. -/
def modified (p : FilePath) : m (Option Instant) := do return (← status p).map (·.modified)

/-- The normal form of a path. -/
def normalize (p : FilePath) : m FilePath := do return FilePath.normalize (← directory) p

/-- The content of a file as text. -/
def readText (p : FilePath) : m (Except SystemFault String) := do
  match ← read p with
  | .error fault => return .error fault
  | .ok bytes =>
    match String.fromUTF8? bytes with
    | some text => return .ok text
    | none => return .error .notText

/-- A directory that could not be made may be there already. -/
def orThere (p : FilePath) : Except SystemFault Unit → m (Except SystemFault Unit)
  | .ok () => return .ok ()
  | .error fault => do if ← isDirectory p then return .ok () else return .error fault

/-- Make a directory, and those it lies in as far as they are missing; at most `depth` of them. -/
def makeDirectoriesWithin : (depth : Nat) → FilePath → m (Except SystemFault Unit)
  | 0, _ => return .error .missing
  | depth + 1, p => do
    if p.text.isEmpty then return .ok ()
    match ← makeDirectory p with
    | .error .missing =>
      match p.parent? with
      | none => return .error .missing
      | some parent =>
        match ← makeDirectoriesWithin depth parent with
        | .error fault => return .error fault
        | .ok () => orThere p (← makeDirectory p)
    | outcome => orThere p outcome

/-- Make a directory, and those it lies in as far as they are missing. -/
def makeDirectories (p : FilePath) : m (Except SystemFault Unit) :=
  makeDirectoriesWithin (p.pieces.length + 1) p

end Host

end LayeredConfig
