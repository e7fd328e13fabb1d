import LayeredConfig.Proofs.Cache.Answer
import LayeredConfig.Proofs.Path.Parents
import Mathlib.Data.List.Nodup

/-!
# Making directories

Without links, the place to which a path leads can be read off the path: it has the names of the
path's normal form. So making a directory, with the directories above it that are missing, puts
directories at places that are known before (`Grown`), and leaves everything that was there as it
was.
-/

namespace LayeredConfig

namespace World

variable {w w' : World} {p : FilePath} {place q r : Place} {t : Instant}

/-! ## Places of paths -/

/-- A walk ends where its pieces climb to. -/
theorem walk_end {pieces : List (List Char)} {node : Option Node}
    (h : w.walk q pieces = .ok (r, node)) :
    r = ((FilePath.innerParts pieces).foldl FilePath.climb q.reverse).reverse := by
  induction pieces generalizing q with
  | nil =>
    cases h
    exact (List.reverse_reverse _).symm
  | cons piece rest ih =>
    obtain ⟨-, ⟨back, ⟨hidle, rfl⟩ | ⟨rfl, rfl⟩, hrest⟩ | ⟨henters, hrest⟩⟩ := walk_cons_ok h
    · rw [FilePath.innerParts_cons_of_isIdle hidle, ih hrest]
    · rw [FilePath.innerParts_cons rfl, ih hrest]
      simp [FilePath.part, FilePath.climb]
    · have hname : FilePath.part piece = .name (String.ofList piece) := by
        rw [FilePath.part, if_neg (by simpa using henters.up)]
      rw [FilePath.innerParts_cons henters.idle, hname]
      rcases hrest with ⟨-, hrest⟩ | ⟨-, hslashes, rfl, -⟩
      · rw [ih hrest]
        simp [FilePath.climb]
      · have hidle : ∀ piece ∈ rest, FilePath.isIdle piece = true := fun piece hpiece => by
          rw [FilePath.isIdle, List.all_eq_true.1 hslashes piece hpiece, Bool.true_or]
        rw [FilePath.innerParts_of_idle hidle]
        simp [FilePath.climb]

/-- The place to which a path leads. -/
def placeOf (w : World) (p : FilePath) : Place := (FilePath.absolute w.directory p).names

theorem placeOf_of_locate {node : Option Node} (h : w.locate p = .ok (place, node)) :
    place = w.placeOf p := by
  rw [placeOf, FilePath.names_eq, walk_end (walk_of_locate h).2]
  rfl

theorem plain_of_mem_placeOf {name : String} (h : name ∈ w.placeOf p) : FilePath.Plain name :=
  FilePath.plain_of_mem_names h

theorem hasDirectory_iff :
    w.hasDirectory p = true ↔ ∃ t, w.locate p = .ok (w.placeOf p, some (.directory t)) := by
  constructor
  · intro h
    rw [hasDirectory, find?] at h
    cases hlocate : w.locate p with
    | error fault =>
      rw [hlocate] at h
      cases h
    | ok found =>
      obtain ⟨place, _ | ⟨_, _⟩ | t⟩ := found
      · rw [hlocate] at h
        cases h
      · rw [hlocate] at h
        cases h
      · rw [placeOf_of_locate hlocate]
        exact ⟨t, rfl⟩
  · rintro ⟨t, h⟩
    rw [hasDirectory, find?, h]
    rfl

/-! ## Sound trees -/

/-- No place is kept twice, and places consist of names. -/
structure Sound (w : World) : Prop where
  once : (w.nodes.map Prod.fst).Nodup
  plain : ∀ e ∈ w.nodes, ∀ name ∈ e.1, FilePath.Plain name

instance (w : World) : Decidable w.Sound :=
  decidable_of_iff (_ ∧ _) ⟨fun ⟨h₁, h₂⟩ => ⟨h₁, h₂⟩, fun ⟨h₁, h₂⟩ => ⟨h₁, h₂⟩⟩

namespace Sound

theorem erase (h : w.Sound) (place : Place) : (w.erase place).Sound where
  once := h.once.sublist (List.filter_sublist.map _)
  plain e he := h.plain e (List.mem_of_mem_filter he)

theorem put (h : w.Sound) (hplace : ∀ name ∈ place, FilePath.Plain name) (node : Node) :
    (w.put place node).Sound where
  once := by
    change ((_ ++ [(place, node)]).map Prod.fst).Nodup
    rw [List.map_append, List.nodup_append]
    refine ⟨h.once.sublist (List.filter_sublist.map _), List.nodup_singleton _, ?_⟩
    intro q hq r hr
    obtain ⟨e, he, rfl⟩ := List.mem_map.1 hq
    rw [List.map_singleton, List.mem_singleton] at hr
    rw [hr]
    simpa using (List.mem_filter.1 he).2
  plain e he := by
    rcases List.mem_append.1 he with he | he
    · exact h.plain e (List.mem_of_mem_filter he)
    · rw [List.mem_singleton.1 he]
      exact hplace

theorem of_nodes_eq (h : w.Sound) (hnodes : w'.nodes = w.nodes) : w'.Sound := by
  constructor
  · rw [hnodes]
    exact h.once
  · rw [hnodes]
    exact h.plain

end Sound

theorem nameIn_eq_some_iff {dir place : Place} {name : String} :
    (if place.dropLast == dir then place.getLast? else none) = some name ↔
      place = dir ++ [name] := by
  constructor
  · intro h
    split at h
    next hdir =>
      obtain ⟨front, rfl⟩ := List.getLast?_eq_some_iff.1 h
      rw [beq_iff_eq, List.dropLast_concat] at hdir
      rw [hdir]
    · cases h
  · rintro rfl
    simp

/-- The names in a directory are those at which there is something. -/
theorem mem_names_iff {dir : Place} {name : String} :
    name ∈ w.names dir ↔ (w.node? (dir ++ [name])).isSome = true := by
  rw [names, List.mem_filterMap, node?_of_ne_nil (by simp), Option.isSome_map,
    List.find?_isSome]
  exact exists_congr fun e => and_congr_right fun _ => nameIn_eq_some_iff.trans beq_iff_eq.symm

theorem Sound.plain_of_mem_names (h : w.Sound) {dir : Place} {name : String}
    (hname : name ∈ w.names dir) : FilePath.Plain name := by
  obtain ⟨e, he, hplace⟩ := List.mem_filterMap.1 hname
  exact h.plain e he name (nameIn_eq_some_iff.1 hplace ▸ List.mem_append_right _ List.mem_cons_self)

theorem Sound.names_nodup (h : w.Sound) (dir : Place) : (w.names dir).Nodup := by
  have hplaces : w.names dir = (w.nodes.map Prod.fst).filterMap fun place =>
      if place.dropLast == dir then place.getLast? else none := by
    rw [names, List.filterMap_map]
    rfl
  rw [hplaces]
  refine h.once.filterMap fun place place' name hplace hplace' => ?_
  rw [nameIn_eq_some_iff.1 hplace, nameIn_eq_some_iff.1 hplace']

/-! ## New directories -/

/-- At some of the places where nothing was, there are directories now; else nothing is changed. -/
structure Grown (P : Place → Prop) (w w' : World) : Prop where
  directory : w'.directory = w.directory
  token : w'.token = w.token
  now : w'.now = w.now
  sound : w.Sound → w'.Sound
  nodes : ∀ place, w'.node? place = w.node? place ∨
    P place ∧ w.node? place = none ∧ w'.node? place = some (.directory w.directoryTime)
  directoryTime : w'.directoryTime = w.directoryTime

namespace Grown

variable {P : Place → Prop} {w₁ w₂ w₃ : World}

theorem refl (P : Place → Prop) (w : World) : Grown P w w :=
  ⟨rfl, rfl, rfl, id, fun _ => .inl rfl, rfl⟩

theorem mono {P' : Place → Prop} (h : Grown P w₁ w₂) (hP : ∀ place, P place → P' place) :
    Grown P' w₁ w₂ where
  directory := h.directory
  token := h.token
  now := h.now
  sound := h.sound
  nodes place := (h.nodes place).imp_right fun ⟨hplace, hmade⟩ => ⟨hP place hplace, hmade⟩
  directoryTime := h.directoryTime

theorem trans (h : Grown P w₁ w₂) (h' : Grown P w₂ w₃) : Grown P w₁ w₃ where
  directory := h'.directory.trans h.directory
  token := h'.token.trans h.token
  now := h'.now.trans h.now
  sound hsound := h'.sound (h.sound hsound)
  directoryTime := h'.directoryTime.trans h.directoryTime
  nodes place := by
    have hnew := h'.nodes place
    rw [h.directoryTime] at hnew
    rcases h.nodes place with hsame | ⟨hplace, hnone, hmade⟩
    · rwa [hsame] at hnew
    · rcases hnew with hsame | ⟨-, hnone', -⟩
      · exact .inr ⟨hplace, hnone, hsame.trans hmade⟩
      · cases hmade.symm.trans hnone'

end Grown

/-- A walk over slashes stays in its directory. -/
theorem walk_slashes {pieces : List (List Char)} (hdir : w.node? q = some (.directory t))
    (h : pieces.all (·.isEmpty) = true) : w.walk q pieces = .ok (q, some (.directory t)) := by
  induction pieces with
  | nil => rw [walk, hdir]
  | cons piece rest ih =>
    rw [List.all_cons, Bool.and_eq_true] at h
    rw [walk_turns hdir (.inl ⟨by simp [FilePath.isIdle, h.1], rfl⟩)]
    exact ih h.2

/-- A walk to a missing place reaches the directory that is put there. -/
theorem walk_put {pieces : List (List Char)} (h : w.walk q pieces = .ok (r, none)) (t : Instant) :
    (w.put r (.directory t)).walk q pieces = .ok (r, some (.directory t)) := by
  have hnone : w.node? r = none := (node_of_walk h).symm
  have hr : r ≠ [] := by
    rintro rfl
    cases hnone
  have hput : (w.put r (.directory t)).node? r = some (.directory t) := by
    rw [node?_put hr, if_pos rfl]
  -- Nothing was at the place, so all that the walk passes is still there.
  have hkept {place : Place} {node : Node} (hplace : w.node? place = some node) :
      (w.put r (.directory t)).node? place = some node := by
    rw [node?_put hr, if_neg, hplace]
    rintro rfl
    cases hnone.symm.trans hplace
  induction pieces generalizing q with
  | nil =>
    obtain rfl : q = r := congrArg Prod.fst (Except.ok.inj h)
    rw [walk, hput]
  | cons piece rest ih =>
    obtain ⟨⟨u, hdir⟩, ⟨back, hturns, hrest⟩ | ⟨henters, hrest⟩⟩ := walk_cons_ok h
    · rw [walk_turns (hkept hdir) hturns, ih hrest]
    · rw [walk_enters (hkept hdir) henters]
      rcases hrest with ⟨hthere, hrest⟩ | ⟨-, hslashes, rfl, -⟩
      · obtain ⟨node, hnode⟩ := Option.isSome_iff_exists.1 hthere
        rw [hkept hnode, Option.isSome_some, if_pos rfl, ih hrest]
      · rw [hput, Option.isSome_some, if_pos rfl, walk_slashes hput hslashes]

theorem makeDirectory_ok (h : w.makeDirectory p = (.ok (), w')) :
    w.node? (w.placeOf p) = none ∧ w' = w.put (w.placeOf p) (.directory w.directoryTime) ∧
      w'.hasDirectory p = true := by
  unfold makeDirectory at h
  split at h
  · cases h
  next place hlocate =>
    cases h
    have hwalk := (walk_of_locate hlocate).2
    rw [← placeOf_of_locate hlocate]
    refine ⟨(node_of_walk hwalk).symm, rfl, hasDirectory_iff.2 ⟨w.directoryTime, ?_⟩⟩
    have hplace : (w.put place (.directory w.directoryTime)).placeOf p = place :=
      (placeOf_of_locate hlocate).symm
    rw [hplace, locate]
    unfold locate at hlocate
    split at hlocate
    · cases hlocate
    next hempty =>
      split at hlocate
      · cases hlocate
      next hzero =>
        split at hlocate
        · cases hlocate
        next hlong =>
          rw [if_neg hempty, if_neg hzero, if_neg hlong]
          exact walk_put hwalk _
  · cases h

theorem makeDirectory_error {fault : SystemFault} (h : w.makeDirectory p = (.error fault, w')) :
    w' = w := by
  unfold makeDirectory at h
  split at h
  · cases h
    rfl
  · cases h
  · cases h
    rfl

theorem makeDirectory_eq_of_ok (h : (w.makeDirectory p).1 = .ok ()) :
    w.makeDirectory p = (.ok (), w.put (w.placeOf p) (.directory w.directoryTime)) :=
  Prod.ext h (makeDirectory_ok (Prod.ext h rfl)).2.1

theorem makeDirectory_eq_of_error {fault : SystemFault} (h : (w.makeDirectory p).1 = .error fault) :
    w.makeDirectory p = (.error fault, w) := Prod.ext h (makeDirectory_error (Prod.ext h rfl))

theorem Grown.makeDirectory {P : Place → Prop} (hp : P (w.placeOf p)) :
    Grown P w (w.makeDirectory p).2 := by
  generalize hmade : w.makeDirectory p = made
  obtain ⟨fault | ⟨⟩, w'⟩ := made
  · rw [makeDirectory_error hmade]
    exact .refl P w
  · obtain ⟨hnone, rfl, -⟩ := makeDirectory_ok hmade
    have hplace : w.placeOf p ≠ [] := by
      intro hroot
      rw [hroot] at hnone
      cases hnone
    refine ⟨rfl, rfl, rfl, fun h => h.put (fun _ => plain_of_mem_placeOf) _, fun place => ?_, rfl⟩
    change (w.put _ _).node? place = _ ∨ _ ∧ _ ∧ (w.put _ _).node? place = _
    rw [node?_put hplace]
    by_cases hat : place = w.placeOf p
    · rw [if_pos hat, hat]
      exact .inr ⟨hp, hnone, rfl⟩
    · exact .inl (if_neg hat)

end World

/-! ## Runs -/

open World (Grown)

section Runs

variable {w : World} {p : FilePath}

theorem makeDirectory_run (w : World) (p : FilePath) :
    outcome (Host.makeDirectory p : ExceptT Error InWorld _) w =
      (.ok (w.makeDirectory p).1, (w.makeDirectory p).2) := rfl

theorem orThere_run (w : World) (p : FilePath) (made : Except SystemFault Unit) :
    outcome (Host.orThere p made : ExceptT Error InWorld _) w =
      (.ok (match made with
        | .ok () => .ok ()
        | .error fault => if w.hasDirectory p then .ok () else .error fault), w) := by
  cases made with
  | ok u => rfl
  | error fault =>
    rw [Host.orThere, outcome_bind_of_ok (isDirectory_run w p)]
    split <;> rfl

/-- Making a directory and accepting one that is there. -/
theorem makeDirectory_orThere_run (w : World) (p : FilePath) :
    ∃ made, outcome (Host.orThere p (w.makeDirectory p).1 : ExceptT Error InWorld _)
        (w.makeDirectory p).2 = (.ok made, (w.makeDirectory p).2) ∧
      (made = .ok () → (w.makeDirectory p).2.hasDirectory p = true) := by
  refine ⟨_, orThere_run _ p _, ?_⟩
  generalize hmade : w.makeDirectory p = made
  obtain ⟨fault | ⟨⟩, w'⟩ := made
  · dsimp only
    split
    next hthere => exact fun _ => hthere
    · exact nofun
  · exact fun _ => (World.makeDirectory_ok hmade).2.2

/-- Making directories ends. Directories are made only at the places of the path and of those
above it; if all goes well, the path is a directory. -/
theorem makeDirectoriesWithin_run (depth : Nat) (w : World) (p : FilePath) :
    ∃ made w', outcome (Host.makeDirectoriesWithin depth p : ExceptT Error InWorld _) w =
        (.ok made, w') ∧ Grown (fun place => ∃ q, q.Above p ∧ place = w.placeOf q) w w' ∧
      (made = .ok () → p.text ≠ "" → w'.hasDirectory p = true) := by
  induction depth generalizing w p with
  | zero => exact ⟨_, w, rfl, .refl _ w, fun h => by cases h⟩
  | succ depth ih =>
    rw [Host.makeDirectoriesWithin]
    by_cases hempty : p.text.isEmpty = true
    · rw [if_pos hempty]
      exact ⟨_, w, rfl, .refl _ w, fun _ h => absurd (by simpa using hempty) h⟩
    have hself {v : World} (hv : v.directory = w.directory) :
        Grown (fun place => ∃ q, q.Above p ∧ place = w.placeOf q) v (v.makeDirectory p).2 :=
      .makeDirectory ⟨p, .refl, by rw [World.placeOf, World.placeOf, hv]⟩
    rw [if_neg hempty, outcome_bind_of_ok (makeDirectory_run w p)]
    split
    next hmissing =>
      -- Something above is missing, and the path is tried again when it has been made.
      rw [World.makeDirectory_eq_of_error hmissing]
      cases hparent : p.parent? with
      | none => exact ⟨_, w, rfl, .refl _ w, fun h => by cases h⟩
      | some parent =>
        obtain ⟨made, w₁, hmade, hgrown, -⟩ := ih w parent
        have habove : Grown (fun place => ∃ q, q.Above p ∧ place = w.placeOf q) w w₁ := by
          refine hgrown.mono ?_
          rintro place ⟨q, hq, hplace⟩
          exact ⟨q, .head hparent hq, hplace⟩
        dsimp only
        rw [outcome_bind_of_ok hmade]
        cases made with
        | error fault => exact ⟨_, w₁, rfl, habove, fun h => by cases h⟩
        | ok u =>
          dsimp only
          rw [outcome_bind_of_ok (makeDirectory_run w₁ p)]
          obtain ⟨made, hrun, hdirectory⟩ := makeDirectory_orThere_run w₁ p
          exact ⟨made, _, hrun, habove.trans (hself habove.directory), fun h _ => hdirectory h⟩
    · obtain ⟨made, hrun, hdirectory⟩ := makeDirectory_orThere_run w p
      exact ⟨made, _, hrun, hself rfl, fun h _ => hdirectory h⟩

end Runs

end LayeredConfig
