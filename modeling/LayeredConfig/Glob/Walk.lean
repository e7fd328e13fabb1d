import LayeredConfig.Host

/-!
# Expanding patterns

`expand` lists the paths that a pattern stands for. It goes from directory to directory, one
component of the pattern after the other, so that here `*` and `?` never match a slash. A component
without wildcards only has to be there. `**` stands for any number of directories, and at the end of
a pattern for the directories themselves.

A path is listed as often as there are ways for the pattern to reach it.
-/

namespace LayeredConfig.Glob

/-- A component of a pattern. -/
abbrev Component := Pattern

/-- The components of a pattern behind its root, if it has one. -/
def components (pattern : String) : List (List Char) :=
  let inner := if FilePath.isAbsolute ⟨pattern⟩ then pattern.toList.drop 1 else pattern.toList
  let pieces := Text.splitAt (· == '/') inner
  match pieces.reverse with
  | [] :: rest => rest.reverse
  | _ => pieces

/-- Read a pattern and its components. The root alone has one empty component. -/
def parseComponents (pattern : String) : Except Fault (List Component) := do
  let _ ← Pattern.parse pattern
  let parsed ← (components pattern).mapM fun c => Pattern.parse (String.ofList c)
  return if pattern == "/" then [[]] else parsed

/-- Drop components for any number of directories. -/
def dropRecursive (cs : List Component) : List Component := cs.dropWhile Pattern.isRecursive

/-- A name seen from a directory; nothing is put before names in the working directory. -/
def below (dir : FilePath) (name : String) : FilePath :=
  if dir.parts == [.here] then ⟨name⟩ else dir.join ⟨name⟩

variable {m : Type → Type} [Monad m] [Host m]

/-- The paths of the names in a directory; none if it is not one. -/
def children (dir : FilePath) : m (List (String × FilePath)) := do
  if !(← Host.isDirectory dir) then return []
  match ← Host.list dir with
  | .error _ => return []
  | .ok names => return names.map fun name => (name, below dir name)

/-- The special names that a component with a leading dot matches. -/
def specialNames (c : Component) : List String :=
  if c.head? == some (.char '.') then [".", ".."].filter c.isMatch else []

/-- Expand the remaining components under a path that one of them has led to. -/
def arrive (expand : List Component → FilePath → m (List FilePath)) (rest : List Component)
    (path : FilePath) : m (List FilePath) :=
  if rest.isEmpty then return [path] else expand rest path

/-- Expand components under a child of a directory, the first of them being tried on the child. -/
def visit (expand : List Component → FilePath → m (List FilePath)) (cs : List Component)
    (name : String) (path : FilePath) : m (List FilePath) := do
  let named (cs : List Component) : m (List FilePath) :=
    match cs with
    | [] => return []
    | c :: rest => if c.isMatch name then arrive expand rest path else return []
  match cs with
  | [] => return []
  | c :: _ =>
    if c.isRecursive then
      let rest := dropRecursive cs
      if ← Host.isDirectory path then
        let deeper ← expand (c :: rest) path
        if rest.isEmpty then return path :: deeper else return deeper ++ (← named rest)
      else named rest
    else named cs

/-- Expand components under a path, at most so many levels deep. -/
def expandUnder : (levels : Nat) → List Component → FilePath → m (List FilePath)
  | 0, _, _ => return []
  | _, [], _ => return []
  | levels + 1, c :: rest, path =>
    match c.literal? with
    | some name => do
      let name := String.ofList name
      let next := below path name
      let there ← if name == "." || name == ".." then Host.isDirectory path
        else Host.isPresent next
      if there then arrive (expandUnder levels) rest next else return []
    | none => do
      let found ← (← children path).mapM fun (name, child) =>
        visit (expandUnder levels) (c :: rest) name child
      let special ← if ← Host.isDirectory path then
          (specialNames c).mapM fun name =>
            arrive (expandUnder levels) rest (path.join ⟨name⟩)
        else pure []
      return (found ++ special).flatten

/-- No path has more levels of directories than it may have characters. -/
def levelLimit : Nat := 4096

/-- The paths a pattern stands for; only directories if it ends with a slash. -/
def expand (pattern : String) : m (Except Fault (List FilePath)) := do
  match parseComponents pattern with
  | .error fault => return .error fault
  | .ok cs =>
    let root : FilePath := ⟨if FilePath.isAbsolute ⟨pattern⟩ then "/" else "."⟩
    let paths ← expandUnder (levelLimit + cs.length) cs root
    if pattern.toList.getLast? == some '/' then
      return .ok (← paths.filterM fun p => Host.isDirectory p)
    else return .ok paths

/-- The files a pattern stands for, in order. -/
def files (pattern : String) : m (Except Fault (List FilePath)) := do
  match ← expand pattern with
  | .error fault => return .error fault
  | .ok paths => return .ok (FilePath.sorted (← paths.filterM fun p => Host.isFile p))

end LayeredConfig.Glob
