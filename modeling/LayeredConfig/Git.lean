import LayeredConfig.Path.File
import LayeredConfig.Text.Blank

/-!
# Version control metadata

What the version control system says of the directory a file lies in: the branch, a description of
the commit, and the remote repositories. A `GitMemo` keeps the first answer for each directory,
also the answer that there is none.
-/

namespace LayeredConfig

/-- What is asked of the version control system. -/
inductive GitQuery where
  | branch
  | describe
  | remotes
deriving DecidableEq, Repr

/-- What is known of a directory under version control. -/
structure GitInfo where
  branch : String
  describe : String
  /-- Name and address of each remote repository. -/
  remotes : List String
deriving DecidableEq, Repr

namespace GitInfo

/-- The name and address on a line, if it has both. -/
def remoteOf? (line : List Char) : Option String :=
  match Text.words line with
  | name :: address :: _ => some (String.ofList (name ++ ' ' :: address))
  | _ => none

/-- The remote repositories of a listing, each once. -/
def remotesOf (listing : String) : List String :=
  ((Text.lines listing.toList).filterMap remoteOf?).foldl
    (fun found remote => if found.contains remote then found else found ++ [remote]) []

/-- What the answers to the three queries say; nothing without a branch. -/
def ofAnswers (branch describe remotes : Option String) : Option GitInfo :=
  branch.map fun branch =>
    { branch := Text.trimmed branch
      describe := (describe.map Text.trimmed).getD ""
      remotes := (remotes.map fun listing => remotesOf (Text.trimmed listing)).getD [] }

end GitInfo

/-- The first answer for each directory. -/
structure GitMemo where
  answers : List (FilePath × Option GitInfo)
deriving Repr

namespace GitMemo

/-- Nothing asked yet. -/
def empty : GitMemo := ⟨[]⟩

/-- The answer kept for a directory, however it is spelled. -/
def find? (memo : GitMemo) (dir : FilePath) : Option (Option GitInfo) :=
  (memo.answers.find? fun e => e.1.same dir).map Prod.snd

/-- Keep an answer for a directory that has none yet. -/
def add (memo : GitMemo) (dir : FilePath) (info : Option GitInfo) : GitMemo :=
  ⟨memo.answers ++ [(dir, info)]⟩

/-- How many directories have an answer. -/
def size (memo : GitMemo) : Nat := memo.answers.length

/-- The answer for a directory, asked for only if none is kept, and the memo afterwards. -/
def ask {m : Type → Type} [Monad m] (memo : GitMemo) (dir : FilePath)
    (probe : FilePath → m (Option GitInfo)) : m (Option GitInfo × GitMemo) :=
  match memo.find? dir with
  | some info => pure (info, memo)
  | none => do
    let info ← probe dir
    return (info, memo.add dir info)

end GitMemo

end LayeredConfig
