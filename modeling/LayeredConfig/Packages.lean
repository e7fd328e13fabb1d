import LayeredConfig.Host
import LayeredConfig.Named

/-!
# Packages

Where the files of a package lie: in the directory registered for its name, or else in the first
search root that has a directory of that name. A registered name is looked for nowhere else.
-/

namespace LayeredConfig

/-- Where packages are found. -/
structure Packages where
  /-- Directories by name. -/
  registered : Named FilePath
  roots : List FilePath
deriving DecidableEq, Repr

namespace Packages

/-- No packages. -/
def none : Packages := ⟨[], []⟩

/-- Register a directory for a name, in place of one registered before. -/
def register (p : Packages) (name : String) (dir : FilePath) : Packages :=
  { p with registered := p.registered.insert name dir }

/-- Search one more root. -/
def addRoot (p : Packages) (root : FilePath) : Packages := { p with roots := p.roots ++ [root] }

variable {m : Type → Type} [Monad m] [Host m]

/-- The first of some directories that is there. -/
def firstDirectory : List FilePath → m (Option FilePath)
  | [] => return Option.none
  | dir :: rest => do if ← Host.isDirectory dir then return some dir else firstDirectory rest

/-- The directory of a package. -/
def locate (p : Packages) (name : String) : m (Option FilePath) :=
  match p.registered.get? name with
  | some dir => firstDirectory [dir]
  | Option.none => firstDirectory (p.roots.map fun root => root.join ⟨name⟩)

/-- A file of a package, which need not be there. -/
def resolve (p : Packages) (name : String) (file : FilePath) : m (Option FilePath) := do
  return (← p.locate name).map fun dir => dir.join file

end Packages

end LayeredConfig
