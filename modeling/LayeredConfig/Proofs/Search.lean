import LayeredConfig.Load
import LayeredConfig.Proofs.Footprint

/-!
# Searching files in a world

Where the file of an entry of `_include` is looked for, and which of some paths is a file, as
functions of the world: these are what the searches of a resolution answer, which change nothing.
-/

namespace LayeredConfig

namespace World

/-- There is a file at the path. -/
def hasFile (w : World) (p : FilePath) : Bool := (w.find? p).any fun node => !node.isDirectory

/-- There is a directory at the path. -/
def hasDirectory (w : World) (p : FilePath) : Bool := (w.find? p).any Node.isDirectory

/-- What is read is the content of a file that is found. -/
theorem content_eq_ok_iff {w : World} {p : FilePath} {bytes : ByteArray} :
    w.content p = .ok bytes ↔ ∃ t, w.find? p = some (.file bytes t) := by
  rw [content, find?]
  cases w.locate p with
  | error fault => simp
  | ok found =>
    obtain ⟨place, _ | ⟨_, t⟩ | _⟩ := found
    · simp
    · simp
    · simp

end World

/-- The directory of a package in a world. -/
def Packages.directoryIn (packages : Packages) (w : World) (name : String) : Option FilePath :=
  match packages.registered.get? name with
  | some dir => [dir].find? w.hasDirectory
  | Option.none => (packages.roots.map fun root => root.join ⟨name⟩).find? w.hasDirectory

/-- The places where an entry of a file's document belongs to be looked for in a world. -/
def Settings.places (s : Settings) (w : World) (owner : FilePath) (entry : IncludeEntry) :
    List FilePath :=
  let file : FilePath := ⟨entry.path⟩
  match entry.package with
  | some package => ((s.packages.directoryIn w package).map fun dir => dir.join file).toList
  | none =>
    if file.isAbsolute then [file]
    else (owner.parent :: s.includeRoots).map fun dir =>
      FilePath.normalize w.directory (dir.join file)

/-! ## Worlds with the same files -/

namespace SameFiles

variable {w w' : World} {s : Settings}

theorem hasFile_eq (h : SameFiles w w') : w'.hasFile = w.hasFile :=
  funext fun p => by rw [World.hasFile, World.hasFile, h.find?_eq]

theorem hasDirectory_eq (h : SameFiles w w') (p : FilePath) :
    w'.hasDirectory p = w.hasDirectory p := by
  rw [World.hasDirectory, World.hasDirectory, h.find?_eq]

theorem places_eq (h : SameFiles w w') (owner : FilePath) (entry : IncludeEntry) :
    s.places w' owner entry = s.places w owner entry := by
  simp only [Settings.places, Packages.directoryIn, h.directory, funext h.hasDirectory_eq]

end SameFiles

/-! ## What searching answers -/

namespace Scope

variable {c : Scope InWorld}

theorem firstDirectory_run (dirs : List FilePath) (p : Progress) (w : World) :
    outcome ((Packages.firstDirectory dirs : Resolving InWorld _).run p) w =
      (.ok (dirs.find? w.hasDirectory, p), w) := by
  induction dirs with
  | nil => rfl
  | cons dir rest ih =>
    have hdirectory : outcome ((Host.isDirectory dir : Resolving InWorld Bool).run p) w =
        (.ok (w.hasDirectory dir, p), w) := by
      change (Except.ok (((w.find? dir).map Node.status).any (·.isDirectory), p), w) = _
      unfold World.hasDirectory
      cases w.find? dir with
      | none => rfl
      | some node => cases node <;> rfl
    rw [Packages.firstDirectory, StateT.run_bind, outcome_bind_of_ok hdirectory, List.find?_cons]
    cases w.hasDirectory dir with
    | true => rfl
    | false => exact ih

theorem firstFile_run (paths : List FilePath) (p : Progress) (w : World) :
    outcome ((firstFile paths : Resolving InWorld _).run p) w =
      (.ok (paths.find? w.hasFile, p), w) := by
  induction paths with
  | nil => rfl
  | cons path rest ih =>
    have hfile : outcome ((Host.isFile path : Resolving InWorld Bool).run p) w =
        (.ok (w.hasFile path, p), w) := by
      change (Except.ok (((w.find? path).map Node.status).any (!·.isDirectory), p), w) = _
      unfold World.hasFile
      cases w.find? path with
      | none => rfl
      | some node => cases node <;> rfl
    rw [firstFile, StateT.run_bind, outcome_bind_of_ok hfile, List.find?_cons]
    cases w.hasFile path with
    | true => rfl
    | false => exact ih

theorem candidates_run (entry : IncludeEntry) (p : Progress) (w : World) :
    outcome ((c.candidates entry).run p) w =
      (.ok (c.settings.places w c.owner entry, p), w) := by
  unfold candidates Settings.places
  dsimp only
  cases entry.package with
  | some package =>
    have hdirectory : outcome ((c.settings.packages.locate package : Resolving InWorld _).run p) w =
        (.ok (c.settings.packages.directoryIn w package, p), w) := by
      unfold Packages.locate Packages.directoryIn
      generalize c.settings.packages.registered.get? package = registered
      cases registered with
      | some dir => exact firstDirectory_run _ p w
      | none => exact firstDirectory_run _ p w
    have hresolve : outcome ((c.settings.packages.resolve package ⟨entry.path⟩ :
        Resolving InWorld _).run p) w =
        (.ok ((c.settings.packages.directoryIn w package).map fun dir =>
          dir.join ⟨entry.path⟩, p), w) := by
      rw [Packages.resolve, StateT.run_bind, outcome_bind_of_ok hdirectory]
      rfl
    change outcome ((c.settings.packages.resolve package ⟨entry.path⟩ >>= fun file =>
      Pure.pure file.toList : Resolving InWorld _).run p) w = _
    rw [StateT.run_bind, outcome_bind_of_ok hresolve]
    rfl
  | none =>
    dsimp only
    split <;> rfl

end Scope

end LayeredConfig
