import LayeredConfig.Proofs.Places
import LayeredConfig.Proofs.Search

/-!
# Worlds that differ in some files

`SameOutside S w w'` says that the worlds differ at most in the files at the places in `S`; all
other files and all directories are the same. A path that does not lead to such a place leads to the
same place in both, and what is found there is the same. Writing, moving and removing files of a
directory changes nothing outside the places of these files, so nothing outside the directory
(`Inside`).
-/

namespace LayeredConfig

/-- The place is right in a directory. -/
def Inside (dir place : Place) : Prop := place ≠ [] ∧ place.dropLast = dir

instance (dir place : Place) : Decidable (Inside dir place) :=
  inferInstanceAs (Decidable (_ ∧ _))

theorem inside_append (dir : Place) (name : String) : Inside dir (dir ++ [name]) :=
  ⟨by simp, List.dropLast_concat⟩

/-- The worlds differ at most in the files at some places. -/
structure SameOutside (S : Place → Prop) (w w' : World) : Prop where
  directory : w'.directory = w.directory
  directoryTime : w'.directoryTime = w.directoryTime
  token : w'.token = w.token
  elsewhere : ∀ place, ¬ S place → w'.node? place = w.node? place
  directories : ∀ place t,
    w'.node? place = some (.directory t) ↔ w.node? place = some (.directory t)

/-- The path does not lead to any of some places. -/
def World.Avoids (w : World) (S : Place → Prop) (p : FilePath) : Prop :=
  match w.locate p with
  | .ok (place, _) => ¬ S place
  | .error _ => True

instance (w : World) (S : Place → Prop) [DecidablePred S] (p : FilePath) :
    Decidable (w.Avoids S p) :=
  match h : w.locate p with
  | .ok (place, _) => decidable_of_iff (¬ S place) (by rw [World.Avoids, h])
  | .error _ => .isTrue (by rw [World.Avoids, h]; trivial)

theorem World.Avoids.of_locate {w : World} {S : Place → Prop} {place : Place} {p : FilePath}
    {node : Option Node} (h : w.Avoids S p) (hlocate : w.locate p = .ok (place, node)) :
    ¬ S place := by
  rw [World.Avoids, hlocate] at h
  exact h

theorem World.avoids_join {w : World} {S : Place → Prop} {root : FilePath} {dir : Place} {t : Instant}
    {name : String} (hroot : w.locate root = .ok (dir, some (.directory t)))
    (hname : FilePath.Plain name) (h : ¬ S (dir ++ [name])) : w.Avoids S (root.join ⟨name⟩) := by
  rw [World.Avoids]
  rcases World.locate_join_cases hroot hname with hlocate | ⟨fault, hlocate⟩
  · rwa [hlocate]
  · rw [hlocate]
    trivial

namespace SameOutside

variable {S S' : Place → Prop} {w w' w'' : World}

theorem refl (S : Place → Prop) (w : World) : SameOutside S w w :=
  ⟨rfl, rfl, rfl, fun _ _ => rfl, fun _ _ => Iff.rfl⟩

theorem symm (h : SameOutside S w w') : SameOutside S w' w where
  directory := h.directory.symm
  directoryTime := h.directoryTime.symm
  token := h.token.symm
  elsewhere place hplace := (h.elsewhere place hplace).symm
  directories place t := (h.directories place t).symm

theorem trans (h : SameOutside S w w') (h' : SameOutside S w' w'') : SameOutside S w w'' where
  directory := h'.directory.trans h.directory
  directoryTime := h'.directoryTime.trans h.directoryTime
  token := h'.token.trans h.token
  elsewhere place hplace := (h'.elsewhere place hplace).trans (h.elsewhere place hplace)
  directories place t := (h'.directories place t).trans (h.directories place t)

theorem mono (h : SameOutside S w w') (hS : ∀ place, S place → S' place) : SameOutside S' w w' where
  directory := h.directory
  directoryTime := h.directoryTime
  token := h.token
  elsewhere place hplace := h.elsewhere place fun hS' => hplace (hS place hS')
  directories := h.directories

theorem of_sameFiles (h : SameFiles w w') (htoken : w'.token = w.token) : SameOutside S w w' := by
  have hnode : ∀ place, w'.node? place = w.node? place := fun place => by
    rw [World.node?, World.node?, h.nodes, h.directoryTime]
  exact ⟨h.directory, h.directoryTime, htoken, fun place _ => hnode place,
    fun place t => by rw [hnode]⟩

/-! ## Where paths lead -/

/-- A walk comes to the same end, unless it ends at a missing file of the places. -/
theorem walk_ok (h : SameOutside S w w') {q r : Place} {pieces : List (List Char)}
    {node : Option Node} (hwalk : w.walk q pieces = .ok (r, node))
    (hend : node = none → ¬ S r) :
    w'.walk q pieces = .ok (r, w'.node? r) := by
  induction pieces generalizing q with
  | nil =>
    cases congrArg (Except.map Prod.fst) hwalk
    rfl
  | cons piece rest ih =>
    obtain ⟨⟨t, hdir⟩, ⟨back, hturns, hrest⟩ | ⟨henters, hrest⟩⟩ := World.walk_cons_ok hwalk
    · rw [World.walk_turns ((h.directories q t).2 hdir) hturns]
      exact ih hrest
    · rw [World.walk_enters ((h.directories q t).2 hdir) henters]
      rcases hrest with ⟨hthere, hrest⟩ | ⟨hnone, hslashes, rfl, rfl⟩
      · split
        · exact ih hrest
        next hgone =>
          -- Only a file of the places can be gone, and the walk ended with it.
          obtain ⟨rfl, rfl⟩ | ⟨t, hdir⟩ := World.directory_of_walk hrest
          · rw [Option.not_isSome_iff_eq_none.1 hgone]
            rfl
          · rw [(h.directories _ t).2 hdir] at hgone
            exact absurd rfl hgone
      · have hgone := (h.elsewhere _ (hend rfl)).trans hnone
        rw [if_neg (by simp [hgone]), if_pos hslashes, hgone]

theorem locate_ok (h : SameOutside S w w') {p : FilePath} {r : Place} {node : Option Node}
    (hlocate : w.locate p = .ok (r, node)) (hend : node = none → ¬ S r) :
    w'.locate p = .ok (r, w'.node? r) := by
  have hwalk := (World.walk_of_locate hlocate).2
  unfold World.locate at hlocate ⊢
  split at hlocate
  · cases hlocate
  next hempty =>
    split at hlocate
    · cases hlocate
    next hzero =>
      split at hlocate
      · cases hlocate
      next hlong =>
        rw [if_neg hempty, if_neg hzero, if_neg hlong, h.directory]
        exact h.walk_ok hwalk hend

/-- What is found at a path that avoids the places is the same. -/
theorem find?_eq (h : SameOutside S w w') {p : FilePath} (hp : w.Avoids S p) :
    w'.find? p = w.find? p := by
  rw [World.find?, World.find?]
  cases hlocate : w.locate p with
  | ok found =>
    obtain ⟨r, node⟩ := found
    have hr := hp.of_locate hlocate
    rw [h.locate_ok hlocate fun _ => hr]
    dsimp only
    rw [h.elsewhere r hr, World.node_of_walk (World.walk_of_locate hlocate).2]
  | error fault =>
    cases hlocate' : w'.locate p with
    | error fault' => rfl
    | ok found =>
      obtain ⟨r, node | node⟩ := found
      · rfl
      · have hthere := h.symm.locate_ok hlocate' fun hnone => by cases hnone
        cases hlocate.symm.trans hthere

/-- A path leads to the same directory. -/
theorem locate_directory (h : SameOutside S w w') {p : FilePath} {place : Place} {t : Instant}
    (hlocate : w.locate p = .ok (place, some (.directory t))) :
    w'.locate p = .ok (place, some (.directory t)) := by
  rw [h.locate_ok hlocate nofun]
  have hnode := World.node_of_walk (World.walk_of_locate hlocate).2
  rw [(h.directories place t).2 hnode.symm]

theorem hasDirectory_eq (h : SameOutside S w w') (p : FilePath) :
    w'.hasDirectory p = w.hasDirectory p := by
  have hmono : ∀ {w w' : World}, SameOutside S w w' → w.hasDirectory p = true →
      w'.hasDirectory p = true := by
    intro w w' h hdirectory
    rw [World.hasDirectory, World.find?] at hdirectory ⊢
    cases hlocate : w.locate p with
    | error fault =>
      rw [hlocate] at hdirectory
      cases hdirectory
    | ok found =>
      obtain ⟨place, _ | ⟨_, _⟩ | t⟩ := found
      · rw [hlocate] at hdirectory
        cases hdirectory
      · rw [hlocate] at hdirectory
        cases hdirectory
      · rw [h.locate_directory hlocate]
        rfl
  exact Bool.eq_iff_iff.2 ⟨hmono h.symm, hmono h⟩

theorem directoryIn_eq (h : SameOutside S w w') (packages : Packages) (name : String) :
    packages.directoryIn w' name = packages.directoryIn w name := by
  simp only [Packages.directoryIn, funext h.hasDirectory_eq]

/-! ## Changes in a directory -/

variable {dir : Place} {name : String}

/-- There is no directory of a name in the directory. -/
def NoDirectory (w : World) (dir : Place) (name : String) : Prop :=
  ∀ t, w.node? (dir ++ [name]) ≠ some (.directory t)

/-- A change of one name that neither was nor becomes a directory. -/
theorem of_nodes {nodes : List (Place × Node)} (hold : NoDirectory w dir name)
    (hnew : NoDirectory { w with nodes := nodes } dir name)
    (hother : ∀ q ≠ dir ++ [name], World.node? { w with nodes := nodes } q = w.node? q) :
    SameOutside (· = dir ++ [name]) w { w with nodes := nodes } := by
  refine ⟨rfl, rfl, rfl, hother, fun place t => ?_⟩
  by_cases hplace : place = dir ++ [name]
  · rw [hplace]
    exact ⟨fun h => absurd h (hnew t), fun h => absurd h (hold t)⟩
  · rw [hother place hplace]

theorem put (hname : NoDirectory w dir name) (content : ByteArray) (t : Instant) :
    SameOutside (· = dir ++ [name]) w (w.put (dir ++ [name]) (.file content t)) := by
  have hnode := World.node?_put (w := w) (List.concat_ne_nil name dir) (.file content t)
  refine of_nodes hname (fun u => ?_) fun q hq => (hnode q).trans (if_neg hq)
  exact (hnode _).trans (if_pos rfl) ▸ nofun

theorem erase (hname : NoDirectory w dir name) :
    SameOutside (· = dir ++ [name]) w (w.erase (dir ++ [name])) := by
  have hnode := World.node?_erase (w := w) (List.concat_ne_nil name dir)
  refine of_nodes hname (fun u => ?_) fun q hq => (hnode q).trans (if_neg hq)
  exact (hnode _).trans (if_pos rfl) ▸ nofun

section Root

variable {root : FilePath} {t : Instant}
  (hroot : w.locate root = .ok (dir, some (.directory t)))
include hroot

theorem write (hname : FilePath.Plain name) (bytes : ByteArray) :
    SameOutside (· = dir ++ [name]) w (w.write (root.join ⟨name⟩) bytes).2 := by
  unfold World.write
  rcases World.locate_join_cases hroot hname with hlocate | ⟨fault, hlocate⟩
  · rw [hlocate]
    cases hnode : w.node? (dir ++ [name]) with
    | none =>
      dsimp only
      split
      · exact refl _ w
      · exact put (by simp [NoDirectory, hnode]) _ _
    | some node =>
      cases node with
      | directory _ => exact refl _ w
      | file _ _ => exact put (by simp [NoDirectory, hnode]) _ _
  · rw [hlocate]
    exact refl _ w

theorem removeFile (hname : FilePath.Plain name) :
    SameOutside (· = dir ++ [name]) w (w.removeFile (root.join ⟨name⟩)).2 := by
  unfold World.removeFile
  rcases World.locate_join_cases hroot hname with hlocate | ⟨fault, hlocate⟩
  · rw [hlocate]
    cases hnode : w.node? (dir ++ [name]) with
    | none => exact refl _ w
    | some node =>
      cases node with
      | directory _ => exact refl _ w
      | file _ _ => exact erase (by simp [NoDirectory, hnode])
  · rw [hlocate]
    exact refl _ w

theorem rename {target : String} (hname : FilePath.Plain name) (htarget : FilePath.Plain target) :
    SameOutside (fun q => q = dir ++ [name] ∨ q = dir ++ [target]) w
      (w.rename (root.join ⟨name⟩) (root.join ⟨target⟩)).2 := by
  unfold World.rename
  rcases World.locate_join_cases hroot hname with hsource | ⟨fault, hsource⟩
  · rw [hsource]
    rcases World.locate_join_cases hroot htarget with hlocate | ⟨fault, hlocate⟩
    · rw [hlocate]
      cases hnode : w.node? (dir ++ [name]) with
      | none => exact refl _ w
      | some node =>
        cases node with
        | directory _ => exact refl _ w
        | file content u =>
          have hgone := erase (show NoDirectory w dir name by simp [NoDirectory, hnode])
          have hmoved (hfree : NoDirectory w dir target) :
              SameOutside (fun q => q = dir ++ [name] ∨ q = dir ++ [target]) w
                ((w.erase (dir ++ [name])).put (dir ++ [target]) (.file content u)) := by
            have hput := put (fun v hv => hfree v ((hgone.directories _ v).1 hv)) content u
            exact (hgone.mono fun _ => .inl).trans (hput.mono fun _ => .inr)
          cases hnode' : w.node? (dir ++ [target]) with
          | none => exact hmoved (by simp [NoDirectory, hnode'])
          | some node' =>
            cases node' with
            | directory _ => exact refl _ w
            | file _ _ => exact hmoved (by simp [NoDirectory, hnode'])
    · rw [hlocate]
      cases w.node? (dir ++ [name]) <;> exact refl _ w
  · rw [hsource]
    exact refl _ w

end Root

end SameOutside

end LayeredConfig
