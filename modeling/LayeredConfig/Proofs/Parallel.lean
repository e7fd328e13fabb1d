import LayeredConfig.Proofs.Meetings
import LayeredConfig.Proofs.Path.NormalForm
import LayeredConfig.Proofs.Resolution

/-!
# Resolutions side by side

Two resolutions of a document that go by different settings, and load files in different ways, go
through the same steps; only where files are included may they come apart. So a relation between
steps holds of whole resolutions (`Parallel.document`) if it survives putting steps in a row, holds
of a step that asks nothing (`Still`) beside itself, and holds where files are included.

A property of steps is such a relation that does not look at the other side. For it, what
there is to say of included files comes down to finding one file and loading one
(`Compatible.document`).
-/

namespace LayeredConfig

variable {α β : Type}

open Relating (quiet)

/-! ## Steps that ask nothing -/

/-- The step asks nothing of the world, and of the progress only the sources; it leaves the ledger
alone. -/
def Still (x : Resolving InWorld α) : Prop :=
  ∀ sources,
    (∃ a sources', ∀ ledger w,
      outcome (x.run ⟨sources, ledger⟩) w = (.ok (a, ⟨sources', ledger⟩), w)) ∨
    ∃ e, ∀ ledger w, outcome (x.run ⟨sources, ledger⟩) w = (.error e, w)

namespace Still

/-- The step ends in the same way in all worlds. -/
theorem ends {x : Resolving InWorld α} (h : Still x) (p : Progress) :
    (∃ a p', p'.ledger = p.ledger ∧ ∀ w, outcome (x.run p) w = (.ok (a, p'), w)) ∨
      ∃ e, ∀ w, outcome (x.run p) w = (.error e, w) := by
  rcases h p.sources with ⟨a, sources, hends⟩ | ⟨e, hends⟩
  · exact .inl ⟨a, ⟨sources, p.ledger⟩, rfl, hends p.ledger⟩
  · exact .inr ⟨e, hends p.ledger⟩

theorem pure (a : α) : Still (pure a) := fun sources => .inl ⟨a, sources, fun _ _ => rfl⟩

theorem fail {c : Scope InWorld} {location : String} {reason : Unresolved} :
    Still (c.fail location reason : Resolving InWorld α) := fun _ => .inr ⟨_, fun _ _ => rfl⟩

theorem sources : Still (do return (← get).sources) :=
  fun sources => .inl ⟨sources, sources, fun _ _ => rfl⟩

theorem orFail {c : Scope InWorld} {location : String} (x : Except Directive.Fault α) :
    Still (c.orFail location x) := by
  cases x with
  | ok a => exact pure a
  | error fault => exact fail

theorem rebind (position : Position) (es : Entries) :
    Still (Scope.rebind position es : Resolving InWorld Unit) := by
  cases position with
  | none => exact pure ()
  | some path =>
    rintro (_ | _ | ⟨own, others⟩)
    · exact .inl ⟨(), none, fun _ _ => rfl⟩
    · exact .inl ⟨(), some [], fun _ _ => rfl⟩
    · exact .inl ⟨(), some ((Tree.replace? (.map es) path own).getD own :: others), fun _ _ => rfl⟩

theorem isPending (c : Scope InWorld) (es : Entries) : Still (c.isPending es) :=
  fun sources => .inl ⟨(c.includes && Entries.has es (.str Directive.includeKey)) ||
    (sources.isSome && Entries.has es (.str Directive.useKey)), sources, fun _ _ =>
      Scope.isPending_run ..⟩

theorem mergeSections (c : Scope InWorld) (sources : List Tree) (location : String)
    (names : List String) (merged : Tree) :
    Still (c.mergeSections sources location merged names) := by
  induction names generalizing merged with
  | nil => exact pure merged
  | cons name rest ih =>
    unfold Scope.mergeSections
    split
    · exact fail
    · split
      · exact ih _
      · exact fail

end Still

/-! ## Relations between resolutions -/

namespace Scope

/-- The file that is found for an entry is the first there is of the places searched. -/
theorem found_of_find {c : Scope InWorld} {raw : String} {entry : IncludeEntry} {location : String}
    {found : Option FilePath} {p p' : Progress} {w w' : World}
    (h : outcome ((c.find raw entry location).run p) w = (.ok (found, p'), w')) :
    found = ((c.settings.places w c.owner entry).find? w.hasFile).map
      (FilePath.normalize w.directory) := by
  rw [find, StateT.run_bind, outcome_bind_of_ok (candidates_run entry p w), StateT.run_bind,
    outcome_bind_of_ok (firstFile_run _ p w)] at h
  cases hfirst : (c.settings.places w c.owner entry).find? w.hasFile with
  | some place =>
    rw [hfirst] at h
    cases h
    rfl
  | none =>
    rw [hfirst] at h
    dsimp only at h
    split at h
    · split at h
      · obtain ⟨_, _, _, -, h⟩ := run_bind_ok h
        obtain ⟨_, _, _, -, h⟩ := run_bind_ok h
        cases h
        rfl
      · obtain ⟨_, _, _, -, h⟩ := run_bind_ok h
        cases h
        rfl
    · split at h
      · cases h
      · cases h

/-- Reusing sections asks for the sources only. -/
theorem tellUseStep_eq {c : Scope InWorld} {resolve : Tree → String → Relating Tree}
    (f : Flattening) (location : String) (position : Position) (es : Entries) :
    c.tellUseStep resolve f location position es = do
      match ← quiet (do return (← get).sources), Entries.get? es (.str Directive.useKey) with
      | some sources, some value =>
        let base ← c.tellReused resolve sources value location f
        let es := Tree.underlay base (Entries.erase es (.str Directive.useKey))
        quiet (rebind position es)
        return es
      | _, _ => return es := rfl

/-- The same resolution, told other settings and another way to load files, with more room. -/
def told (c : Scope InWorld) (settings : Settings)
    (load : FilePath → List FilePath → String → ExceptT Error InWorld (Tree × Ledger))
    (extra : Nat) : Scope InWorld :=
  { c with settings := settings, load := load, room := c.room + extra }

/-- A relation between the steps of a resolution and those of the same one told otherwise. Where the
first has no room left, the second may have some. -/
structure Parallel (c : Scope InWorld) (heard : FilePath → List FilePath → String → World →
    List Meeting) (settings : Settings)
    (load : FilePath → List FilePath → String → ExceptT Error InWorld (Tree × Ledger))
    (extra : Nat) (heard' : FilePath → List FilePath → String → World → List Meeting)
    (Ψ : ∀ {α : Type}, Relating α → Relating α → Prop) : Prop where
  bind : ∀ {α β : Type} {x y : Relating α} {f g : α → Relating β},
    Ψ x y → (∀ a, Ψ (f a) (g a)) → Ψ (x >>= f) (y >>= g)
  still : ∀ {α : Type} {x : Resolving InWorld α}, Still x → Ψ (quiet x) (quiet x)
  all : ∀ (f : Flattening) (location : String) (merged : Tree) (raws : List String),
    Ψ (c.tellAll heard f location merged raws)
      ((c.told settings load extra).tellAll heard' f location merged raws)
  spent : extra ≠ 0 → ∀ (location : String) (y : Relating Tree),
    Ψ (quiet (c.fail location .unbounded)) y

namespace Parallel

variable {c : Scope InWorld} {settings : Settings}
  {load : FilePath → List FilePath → String → ExceptT Error InWorld (Tree × Ledger)} {extra : Nat}
  {heard heard' : FilePath → List FilePath → String → World → List Meeting}
  {Ψ : ∀ {α : Type}, Relating α → Relating α → Prop}
  (h : c.Parallel heard settings load extra heard' Ψ)
include h

theorem pure (a : α) : Ψ (pure a) (pure a) := h.still (Still.pure a)

theorem mergeSections (sources : List Tree) (location : String) (names : List String)
    (merged : Tree) :
    Ψ (quiet (c.mergeSections sources location merged names))
      (quiet ((c.told settings load extra).mergeSections sources location merged names)) := by
  have hsame : (c.told settings load extra).mergeSections sources location merged names =
      c.mergeSections sources location merged names := by
    induction names generalizing merged with
    | nil => rfl
    | cons name rest ih =>
      unfold Scope.mergeSections
      split
      · rfl
      · rw [ih]
        rfl
  rw [hsame]
  exact h.still (Still.mergeSections c sources location names merged)

theorem includeStep (f : Flattening) (location : String) (position : Position) (es : Entries) :
    Ψ (c.tellIncludeStep heard f location position es)
      ((c.told settings load extra).tellIncludeStep heard' f location position es) := by
  have hincludes : (c.told settings load extra).includes = c.includes := rfl
  unfold tellIncludeStep
  dsimp only
  rw [hincludes]
  generalize (if c.includes then Entries.get? es (.str Directive.includeKey) else none) = value
  cases value with
  | none => exact h.pure es
  | some value =>
    refine h.bind ?_ fun base => h.bind (h.still (Still.rebind position _)) fun _ => h.pure _
    exact h.bind (h.still (Still.orFail _)) fun raws => h.all f location .empty raws

section Sections

variable {resolve resolve' : Tree → String → Relating Tree}
  (hresolve : ∀ base location, Ψ (resolve base location) (resolve' base location))
include hresolve

theorem useStep (f : Flattening) (location : String) (position : Position) (es : Entries) :
    Ψ (c.tellUseStep resolve f location position es)
      ((c.told settings load extra).tellUseStep resolve' f location position es) := by
  rw [tellUseStep_eq, tellUseStep_eq]
  refine h.bind (h.still Still.sources) fun sources => ?_
  generalize Entries.get? es (.str Directive.useKey) = value
  match sources, value with
  | none, _ => exact h.pure es
  | some _, none => exact h.pure es
  | some sources, some value =>
    refine h.bind ?_ fun base => h.bind (h.still (Still.rebind position _)) fun _ => h.pure _
    refine h.bind (h.still (Still.orFail _)) fun names => ?_
    refine h.bind (h.mergeSections sources location names .empty) fun base => ?_
    exact h.bind (hresolve base location) fun t => h.pure _

theorem substitute (f : Flattening) (location : String) (position : Position) (passes : Nat)
    (es : Entries) :
    Ψ (c.tellSubstitute heard resolve f location position passes es)
      ((c.told settings load extra).tellSubstitute heard' resolve' f location position passes
        es) := by
  induction passes generalizing es with
  | zero =>
    unfold tellSubstitute
    refine h.bind (h.still (Still.isPending c es)) fun pending => ?_
    cases pending with
    | false => exact h.pure es
    | true => exact h.still Still.fail
  | succ passes ih =>
    unfold tellSubstitute
    refine h.bind (h.still (Still.isPending c es)) fun pending => ?_
    cases pending with
    | false => exact h.pure es
    | true =>
      refine h.bind (h.includeStep f location position es) fun es => ?_
      exact h.bind (h.useStep hresolve f location position es) fun es => ih es

end Sections

section Trees

variable {onward onward' : MappingTeller}

theorem entries {es : List (Tree × Tree)}
    (hes : ∀ e ∈ es, ∀ location position,
      Ψ (tellTree onward location position e.2) (tellTree onward' location position e.2))
    (location : String) (position : Position) :
    Ψ (tellEntries onward location position es) (tellEntries onward' location position es) := by
  induction es with
  | nil =>
    unfold tellEntries
    exact h.pure []
  | cons e rest ih =>
    unfold tellEntries
    refine h.bind (hes e List.mem_cons_self _ _) fun value => ?_
    exact h.bind (ih fun e he => hes e (List.mem_cons_of_mem _ he)) fun rest => h.pure _

theorem items {items : List Tree}
    (hitems : ∀ t ∈ items, ∀ location position,
      Ψ (tellTree onward location position t) (tellTree onward' location position t))
    (location : String) (position : Position) (i : Nat) :
    Ψ (tellItems onward location position i items)
      (tellItems onward' location position i items) := by
  induction items generalizing i with
  | nil =>
    unfold tellItems
    exact h.pure []
  | cons t rest ih =>
    unfold tellItems
    refine h.bind (hitems t List.mem_cons_self _ _) fun item => ?_
    exact h.bind (ih (fun t ht => hitems t (List.mem_cons_of_mem _ ht)) _) fun rest => h.pure _

theorem tree (honward : ∀ es location position,
      Ψ (onward es location position) (onward' es location position))
    (t : Tree) (location : String) (position : Position) :
    Ψ (tellTree onward location position t) (tellTree onward' location position t) := by
  induction t using Tree.induction generalizing location position with
  | map es ih =>
    unfold tellTree
    by_cases hdirected : isDirected es = true
    · rw [if_pos hdirected, if_pos hdirected]
      exact honward es location position
    · rw [if_neg hdirected, if_neg hdirected]
      refine h.bind ?_ fun es => h.pure _
      exact h.entries (fun e he => (ih e he).2) location position
  | seq items ih =>
    unfold tellTree
    exact h.bind (h.items ih location position 0) fun items => h.pure _
  | _ =>
    unfold tellTree
    exact h.pure _

end Trees

theorem mapping {resolve resolve' : Tree → String → Relating Tree}
    (hresolve : ∀ base location, Ψ (resolve base location) (resolve' base location))
    (room : Nat) (es : Entries) (location : String) (position : Position) :
    Ψ (c.tellMapping heard resolve room es location position)
      ((c.told settings load extra).tellMapping heard' resolve' (room + extra) es location
        position) := by
  induction room generalizing es location position with
  | zero =>
    cases extra with
    | zero => exact h.still Still.fail
    | succ extra => exact h.spent (Nat.succ_ne_zero _) location _
  | succ room ih =>
    rw [Nat.succ_add]
    unfold tellMapping
    refine h.bind (h.still (Still.orFail _)) fun f => ?_
    refine h.bind (h.substitute hresolve f location position substitutionLimit _) fun es => ?_
    refine h.bind (h.entries (fun e _ => ?_) location position) fun es => h.pure _
    exact h.tree ih e.2

theorem sections (levels : Nat) (base : Tree) (location : String) :
    Ψ (c.tellSections heard levels base location)
      ((c.told settings load extra).tellSections heard' levels base location) := by
  induction levels generalizing base location with
  | zero => exact h.still Still.fail
  | succ levels ih =>
    unfold tellSections
    rw [show (c.told settings load extra).room + base.nodeCount = c.room + base.nodeCount + extra
      from Nat.add_right_comm ..]
    exact h.tree (h.mapping ih _) base location none

/-- What is related step by step is related over the whole resolution of a document. -/
theorem document (location : String) (position : Position) (document : Tree) :
    Ψ (c.tellDocument heard location position document)
      ((c.told settings load extra).tellDocument heard' location position document) := by
  unfold tellDocument
  rw [show (c.told settings load extra).room + document.nodeCount =
    c.room + document.nodeCount + extra from Nat.add_right_comm ..]
  exact h.tree (h.mapping (h.sections substitutionLimit) _) document location position

end Parallel

/-! ## Properties of resolutions -/

/-- A property of telling steps that all of a resolution has if its parts have it. What follows a
step need have it only after results that the step can have. -/
structure Compatible (c : Scope InWorld)
    (heard : FilePath → List FilePath → String → World → List Meeting)
    (Φ : ∀ {α : Type}, Relating α → Prop) : Prop where
  bind : ∀ {α β : Type} {x : Relating α} {f : α → Relating β}, Φ x →
    (∀ a, Gives (fun _ => True) x.plain a → Φ (f a)) → Φ (x >>= f)
  still : ∀ {α : Type} {x : Resolving InWorld α}, Still x → Φ (quiet x)
  find : ∀ {raw : String} {entry : IncludeEntry} (location : String),
    IncludeEntry.parse raw = .ok entry → Φ (c.tellFind raw entry location)
  load : ∀ (f : Flattening) (location : String) (merged : Tree) {file : FilePath},
    file.IsNormal → Φ (c.tellInclude heard f location merged file)

namespace Compatible

variable {c : Scope InWorld}
  {heard : FilePath → List FilePath → String → World → List Meeting}
  {Φ : ∀ {α : Type}, Relating α → Prop}

/-- A file that is found is given in normal form. -/
theorem isNormal_of_gives {raw : String} {entry : IncludeEntry} {location : String}
    {found : Option FilePath}
    (h : Gives (fun _ => True) (c.tellFind raw entry location).plain found) :
    ∀ file ∈ found, file.IsNormal := by
  obtain ⟨p, w, p', w', -, hrun⟩ := h
  rw [found_of_find hrun]
  intro file hfile
  obtain ⟨place, -, rfl⟩ := Option.map_eq_some_iff.1 hfile
  exact FilePath.isNormal_normalize _ _

theorem all (h : c.Compatible heard Φ) (f : Flattening) (location : String) (merged : Tree)
    (raws : List String) : Φ (c.tellAll heard f location merged raws) := by
  induction raws generalizing merged with
  | nil => exact h.still (Still.pure merged)
  | cons raw rest ih =>
    unfold tellAll
    refine h.bind (h.still (Still.orFail _)) fun entry hentry => ?_
    have hparse : IncludeEntry.parse raw = .ok entry := by
      obtain ⟨p, w, p', w', -, hrun⟩ := hentry
      cases hparsed : IncludeEntry.parse raw with
      | ok parsed =>
        rw [hparsed] at hrun
        cases hrun
        rfl
      | error fault =>
        rw [hparsed] at hrun
        cases hrun
    refine h.bind (h.find location hparse) fun found hfound => ?_
    cases found with
    | none => exact ih merged
    | some file =>
      have hnormal := isNormal_of_gives hfound file rfl
      exact h.bind (h.load f location merged hnormal) fun merged _ => ih merged

/-- What all parts of a resolution have, the whole resolution of a document has. -/
theorem document (h : c.Compatible heard Φ) (location : String) (position : Position)
    (document : Tree) : Φ (c.tellDocument heard location position document) := by
  have hparallel : c.Parallel heard c.settings c.load 0 heard fun {_} x _ => Φ x := {
    bind := fun hx hf => h.bind hx fun a _ => hf a
    still := h.still
    all := h.all
    spent := fun h => absurd rfl h }
  exact hparallel.document location position document

end Compatible

end Scope

end LayeredConfig
