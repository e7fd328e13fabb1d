import LayeredConfig.Proofs.Reuse.OnlyUses
import LayeredConfig.Proofs.Tree.Lookup

/-!
# Computed resolutions

Trees whose only directives are `_use`s of sections beside them are resolved by `Reuse.mapping`.
`Computes` says of a step of a resolution that it has a given value for a result, wherever in a
document it is carried out and whatever was resolved before it.
-/

namespace LayeredConfig

open Directive Tree

/-! ## Steps that compute -/

/-- From sources in `J` the step has the value for a result, if there is one, and fails if there is
none. It has no effect but on the sources, which stay in `J`. -/
def Computes {α : Type} (J : Option (List Tree) → Prop) (x : Resolving InWorld α)
    (value : Option α) : Prop :=
  ∀ p w, J p.sources →
    (∀ a, value = some a → ∃ sources, J sources ∧
      outcome (x.run p) w = (.ok (a, { p with sources := sources }), w)) ∧
    (value = none → ∃ e w', outcome (x.run p) w = (.error e, w'))

namespace Computes

variable {α β : Type} {J : Option (List Tree) → Prop}

theorem pure (a : α) : Computes J (pure a) (some a) := by
  intro p w hp
  refine ⟨fun b hb => ?_, nofun⟩
  cases hb
  exact ⟨p.sources, hp, rfl⟩

theorem fail {s : Scope InWorld} {location : String} {reason : Unresolved} :
    Computes J (s.fail location reason : Resolving InWorld α) none :=
  fun _ _ _ => ⟨nofun, fun _ => ⟨_, _, rfl⟩⟩

theorem bind {x : Resolving InWorld α} {f : α → Resolving InWorld β} {value : Option α}
    {g : α → Option β} (hx : Computes J x value)
    (hf : ∀ a, value = some a → Computes J (f a) (g a)) :
    Computes J (x >>= f) (value.bind g) := by
  intro p w hp
  rw [StateT.run_bind, outcome_bind]
  cases value with
  | none =>
    obtain ⟨e, w', hrun⟩ := (hx p w hp).2 rfl
    rw [hrun]
    exact ⟨nofun, fun _ => ⟨e, w', rfl⟩⟩
  | some a =>
    obtain ⟨sources, hsources, hrun⟩ := (hx p w hp).1 a rfl
    rw [hrun]
    exact hf a rfl { p with sources := sources } w hsources

theorem map {x : Resolving InWorld α} {value : Option α} (f : α → β) (hx : Computes J x value) :
    Computes J (do return f (← x)) (value.map f) := by
  rw [Option.map_eq_bind]
  exact hx.bind fun a _ => pure (f a)

theorem orFail {s : Scope InWorld} {location : String} (x : Except Directive.Fault α) :
    Computes J (s.orFail location x) x.toOption := by
  cases x with
  | ok a => exact pure a
  | error fault => exact fail

/-- A computed result is the only one. -/
theorem value_eq {x : Resolving InWorld α} {value : Option α} (h : Computes J x value)
    {p p' : Progress} {w w' : World} {a : α} (hp : J p.sources)
    (hrun : outcome (x.run p) w = (.ok (a, p'), w')) : value = some a := by
  cases value with
  | none =>
    obtain ⟨e, w₁, herror⟩ := (h p w hp).2 rfl
    cases hrun.symm.trans herror
  | some b =>
    obtain ⟨sources, -, hok⟩ := (h p w hp).1 b rfl
    cases hrun.symm.trans hok
    rfl

theorem returns_iff {x : Resolving InWorld α} {value : Option α} (h : Computes J x value)
    {p : Progress} {w : World} {a : α} (hp : J p.sources) :
    (∃ p' w', outcome (x.run p) w = (.ok (a, p'), w')) ↔ value = some a := by
  refine ⟨fun ⟨p', w', hrun⟩ => h.value_eq hp hrun, fun hvalue => ?_⟩
  obtain ⟨sources, -, hok⟩ := (h p w hp).1 a hvalue
  exact ⟨_, _, hok⟩

end Computes

/-! ## Sections beside a mapping -/

/-- The sections of the names in `N` are found in the sources by `find`. -/
def Finds (N : String → Prop) (find : String → Option Tree) (sources : Option (List Tree)) :
    Prop :=
  ∃ list, sources = some list ∧ ∀ name, N name → Scope.sectionNamed? list name = find name

/-- Putting a mapping into the first source, at a position or below it, keeps the sources in `J`. -/
def Steady (J : Option (List Tree) → Prop) (position : Position) : Prop :=
  ∀ below es, Computes J (Scope.rebind (position.map (· ++ below)) es) (some ())

namespace Steady

variable {J : Option (List Tree) → Prop} {position : Position}

theorem none : Steady J none := fun _ _ => Computes.pure ()

theorem rebind (h : Steady J position) (es : Entries) :
    Computes J (Scope.rebind position es) (some ()) := by
  have hself : position.map (· ++ ([] : List Segment)) = position := by simp
  rw [← hself]
  exact h [] es

theorem below (h : Steady J position) (segment : Segment) :
    Steady J (position.map (· ++ [segment])) := by
  intro rest es
  have hnested : (position.map (· ++ [segment])).map (· ++ rest) =
      position.map (· ++ segment :: rest) := by
    cases position <;> simp
  rw [hnested]
  exact h _ es

theorem entry (h : Steady J position) (key : String) : Steady J (position.entry key) := h.below _

theorem item (h : Steady J position) (i : Nat) : Steady J (position.item i) := h.below _

end Steady

/-- The sections of the names in `N` do not lie on the way to a position, nor below it. -/
def Beside (N : String → Prop) (position : Position) : Prop :=
  ∀ path, position = some path → ∀ name, N name → Diverges path (SectionPath.parse name)

namespace Beside

variable {N : String → Prop} {position : Position}

theorem below (h : Beside N position) (rest : List Segment) :
    Beside N (position.map (· ++ rest)) := by
  intro path hpath name hname
  obtain ⟨at_, hat, rfl⟩ := Option.map_eq_some_iff.1 hpath
  exact (h at_ hat name hname).append _

/-- The sections are found as before when a mapping beside them is put into the first source. -/
theorem steady {find : String → Option Tree} (h : Beside N position) :
    Steady (Finds N find) position := by
  intro rest es
  have hbelow := h.below rest
  generalize position.map (· ++ rest) = position at hbelow
  unfold Scope.rebind
  split
  · exact Computes.pure ()
  next path =>
    rintro p w ⟨list, hlist, hfind⟩
    refine ⟨fun _ _ => ⟨_, ?_, rfl⟩, nofun⟩
    rw [hlist]
    cases list with
    | nil => exact ⟨[], rfl, hfind⟩
    | cons own others =>
      refine ⟨_, rfl, fun name hname => ?_⟩
      rw [← hfind name hname]
      change Scope.sectionNamed? ((Tree.replace? (.map es) path own).getD own :: others) name = _
      cases hnew : Tree.replace? (.map es) path own with
      | none => rfl
      | some new =>
        rw [Option.getD_some, Scope.sectionNamed?, Scope.sectionNamed?, List.findSome?_cons,
          List.findSome?_cons, lookup_replace? hnew (hbelow path rfl name hname)]

end Beside

namespace Scope

variable {s : Scope InWorld} {N : String → Prop} {find : String → Option Tree}

theorem computes_mergeSections {J : Option (List Tree) → Prop} {list : List Tree}
    {location : String} {merged : Tree} {names : List String}
    (h : ∀ name ∈ names, sectionNamed? list name = find name) :
    Computes J (s.mergeSections list location merged names)
      (Reuse.sections find merged names) := by
  induction names generalizing merged with
  | nil => exact Computes.pure merged
  | cons name rest ih =>
    unfold mergeSections Reuse.sections
    rw [h name List.mem_cons_self]
    cases find name with
    | none => exact Computes.fail
    | some found =>
      dsimp only [Option.bind_some]
      split
      · exact ih fun name hname => h name (List.mem_cons_of_mem _ hname)
      · exact Computes.fail

end Scope

/-! ## Computing resolutions -/

namespace Scope

variable {s : Scope InWorld} {N : String → Prop} {find : String → Option Tree}
  {J : Option (List Tree) → Prop} {resolve : Tree → String → Resolving InWorld Tree}
  {value : Tree → Option Tree} {f : Flattening} {position : Position}

section Steps

variable (hclosed : ∀ name, N name → ∀ t, find name = some t → OnlyUses N t)
  (hfinds : ∀ sources, J sources → Finds N find sources)
  (hresolve : ∀ t location, OnlyUses N t → Computes J (resolve t location) (value t))
  (hdepth : f.depth = 0) (hposition : Steady J position)
include hclosed hfinds hresolve hdepth hposition

omit hfinds hposition in
theorem computes_reused (location : String) {es : Entries} (hes : OnlyUses N (.map es))
    {names : Tree} (hvalue : Entries.get? es (.str useKey) = some names) {list : List Tree}
    (hfind : ∀ name, N name → sectionNamed? list name = find name) :
    Computes J (s.reused resolve list names location f)
      ((Directive.names useKey names).toOption.bind fun names =>
        (Reuse.sections find .empty names).bind value) := by
  unfold reused
  refine (Computes.orFail _).bind fun ns hns => ?_
  have hnames : ∀ n ∈ ns, N n := by
    refine hes.names hvalue ?_
    cases hparsed : Directive.names useKey names with
    | error fault => rw [hparsed] at hns; cases hns
    | ok ns' => rw [hparsed] at hns; cases hns; rfl
  refine (computes_mergeSections fun name hname => hfind name (hnames name hname)).bind
    fun merged hmerged => ?_
  have honly := Reuse.sections_onlyUses hclosed everywhere_empty hnames hmerged
  rw [hdepth]
  simp only [flatten_zero, bind_pure]
  exact hresolve merged location honly

theorem computes_useStep (location : String) {es : Entries} (hes : OnlyUses N (.map es)) :
    Computes J (s.useStep resolve f location position es) (Reuse.carryOut find value es) := by
  intro p w hp
  obtain ⟨list, hlist, hfind⟩ := hfinds _ hp
  rw [useStep_run_eq, hlist]
  cases hvalue : Entries.get? es (.str useKey) with
  | none =>
    rw [Reuse.carryOut, hvalue]
    exact Computes.pure es p w hp
  | some names =>
    rw [Reuse.carryOut, hvalue]
    dsimp only
    have hreused := computes_reused (s := s) hclosed hresolve hdepth location hes hvalue hfind
    have hlaid := hreused.bind fun base _ =>
      (hposition.rebind (Tree.underlay base (Entries.erase es (.str useKey)))).bind
        fun _ _ => Computes.pure (Tree.underlay base (Entries.erase es (.str useKey)))
    simp only [Option.bind_assoc, Option.bind_some] at hlaid
    exact hlaid p w hp

theorem computes_substitute (hlacks : ∀ t t', OnlyUses N t → value t = some t' → t'.Lacks all)
    (location : String) (passes : Nat) {es : Entries} (hes : OnlyUses N (.map es)) :
    Computes J (s.substitute resolve f location position (passes + 1) es)
      (Reuse.carryOut find value es) := by
  have hpending : ∀ es, OnlyUses N (.map es) →
      Computes J (s.isPending es) (some (Entries.has es (.str useKey))) := by
    intro es hes p w hp
    obtain ⟨list, hlist, -⟩ := hfinds _ hp
    refine ⟨fun b hb => ⟨p.sources, hp, ?_⟩, fun hnone => by cases hnone⟩
    have hinclude := Entries.without_iff_has.1 hes.without includeKey List.mem_cons_self
    have hsources : p.sources.isSome = true := by rw [hlist, Option.isSome_some]
    rw [isPending_run, hinclude, hsources, ← Option.some_inj.1 hb, Bool.and_false, Bool.false_or,
      Bool.true_and]
  have hdone : ∀ passes es, OnlyUses N (.map es) → Entries.has es (.str useKey) = false →
      Computes J (s.substitute resolve f location position passes es) (some es) := by
    intro passes es hes huse
    unfold substitute
    refine (hpending es hes).bind (g := fun _ => some es) fun b hb => ?_
    rw [← Option.some_inj.1 hb, huse]
    exact Computes.pure es
  cases huse : Entries.has es (.str useKey) with
  | false =>
    have hnone : Entries.get? es (.str useKey) = none := by
      simpa [Entries.has_eq_isSome] using huse
    rw [Reuse.carryOut, hnone]
    exact hdone _ es hes huse
  | true =>
    have hinclude : Computes J (s.includeStep f location position es) (some es) := by
      refine fun p w hp => ⟨fun a ha => ⟨p.sources, hp, ?_⟩, fun hnone => by cases hnone⟩
      have hnone := Entries.without_iff_has.1 hes.without includeKey List.mem_cons_self
      rw [← Option.some_inj.1 ha]
      exact includeStep_run (by rw [hnone, Bool.and_false]) p w
    unfold substitute
    refine (hpending es hes).bind (g := fun _ => Reuse.carryOut find value es) fun b hb => ?_
    rw [← Option.some_inj.1 hb, huse]
    have hsteps : Computes J (do
          let es ← s.includeStep f location position es
          let es ← s.useStep resolve f location position es
          s.substitute resolve f location position passes es)
        ((some es).bind fun es => (Reuse.carryOut find value es).bind some) := by
      refine hinclude.bind fun es' hes' => ?_
      obtain rfl : es = es' := Option.some_inj.1 hes'
      refine (computes_useStep hclosed hfinds hresolve hdepth hposition location hes).bind
        fun es'' hes'' => ?_
      obtain ⟨honly, hwithout⟩ := Reuse.carryOut_without hclosed hlacks hes hes''
      exact hdone passes es'' honly (Entries.without_iff_has.1 hwithout useKey (by simp [all]))
    simpa using hsteps

end Steps

section Trees

variable {onward : MappingResolver InWorld} {g : Entries → Option Tree}

theorem computes_resolveEntries {es : Entries}
    (h : ∀ e ∈ es, ∀ location position, Steady J position →
      Computes J (resolveTree onward location position e.2) (Tree.traverse Reuse.uses g e.2))
    (location : String) (hposition : Steady J position) :
    Computes J (resolveEntries onward location position es) (traverseEntries Reuse.uses g es) := by
  induction es with
  | nil =>
    unfold resolveEntries traverseEntries
    exact Computes.pure []
  | cons e rest ih =>
    obtain ⟨key, value⟩ := e
    obtain ⟨hfirst, hrest⟩ := List.forall_mem_cons.1 h
    unfold resolveEntries traverseEntries
    refine (hfirst _ _ (hposition.entry _)).bind fun v _ => ?_
    exact (ih hrest).map _

theorem computes_resolveItems {ts : List Tree}
    (h : ∀ t ∈ ts, ∀ location position, Steady J position →
      Computes J (resolveTree onward location position t) (Tree.traverse Reuse.uses g t))
    (location : String) (hposition : Steady J position) (i : Nat) :
    Computes J (resolveItems onward location position i ts) (traverseItems Reuse.uses g ts) := by
  induction ts generalizing i with
  | nil =>
    unfold resolveItems traverseItems
    exact Computes.pure []
  | cons t rest ih =>
    obtain ⟨hfirst, hrest⟩ := List.forall_mem_cons.1 h
    unfold resolveItems traverseItems
    refine (hfirst _ _ (hposition.item _)).bind fun v _ => ?_
    exact (ih hrest _).map _

theorem computes_resolveTree
    (honward : ∀ es location position, OnlyUses N (.map es) → Steady J position →
      Computes J (onward es location position) (g es)) {t : Tree} (ht : OnlyUses N t)
    (location : String) (hposition : Steady J position) :
    Computes J (resolveTree onward location position t) (Tree.traverse Reuse.uses g t) := by
  induction t using Tree.induction generalizing location position with
  | map es ih =>
    unfold resolveTree Tree.traverse
    have hdirected : isDirected es = Entries.has es (.str useKey) := by
      have hwithout := Entries.without_iff_has.1 ht.without
      simp [isDirected, hwithout]
    rw [hdirected]
    split
    · exact honward es location position ht hposition
    · exact (computes_resolveEntries (fun e he _ _ => (ih e he).2 (ht.values e he) _) location
        hposition).map _
  | seq ts ih =>
    unfold resolveTree Tree.traverse
    exact (computes_resolveItems (fun t ht' _ _ => ih t ht' (everywhere_seq.1 ht t ht') _) location
      hposition 0).map _
  | _ =>
    unfold resolveTree Tree.traverse
    exact Computes.pure _

theorem computes_values
    (honward : ∀ es location position, OnlyUses N (.map es) → Steady J position →
      Computes J (onward es location position) (g es)) {es : Entries} (hes : OnlyUses N (.map es))
    (location : String) (hposition : Steady J position) :
    Computes J (resolveEntries onward location position es) (traverseEntries Reuse.uses g es) :=
  computes_resolveEntries (fun e he location _ => computes_resolveTree honward (hes.values e he)
    location) location hposition

end Trees

section Mappings

variable (hclosed : ∀ name, N name → ∀ t, find name = some t → OnlyUses N t)
  (hfinds : ∀ sources, J sources → Finds N find sources)
include hclosed hfinds

theorem computes_resolveMapping
    (hresolve : ∀ t location, OnlyUses N t →
      Computes J (resolve t location) (value t))
    (hlacks : ∀ t t', OnlyUses N t → value t = some t' → t'.Lacks all) (room : Nat)
    {es : Entries} (hes : OnlyUses N (.map es)) (location : String)
    (hposition : Steady J position) :
    Computes J (s.resolveMapping resolve room es location position)
      (Reuse.mapping find value room es) := by
  induction room generalizing es location position with
  | zero => exact Computes.fail
  | succ room ih =>
    unfold resolveMapping Reuse.mapping
    have hflattening : Entries.Without [flattenKey, separatorKey] es := fun e he name hname =>
      hes.without e he name (List.mem_cons_of_mem _ hname)
    rw [Flattening.take_of_without hflattening]
    refine (Computes.pure (J := J) Flattening.none).bind
      (g := fun _ => (Reuse.carryOut find value es).bind fun es =>
        (traverseEntries Reuse.uses (Reuse.mapping find value room) es).map Tree.map) fun f hf => ?_
    obtain rfl : Flattening.none = f := Option.some_inj.1 hf
    refine (computes_substitute hclosed hfinds hresolve rfl hposition hlacks location _ hes).bind
      fun es' hes' => ?_
    obtain ⟨honly, -⟩ := Reuse.carryOut_without hclosed hlacks hes hes'
    exact (computes_values (fun es location position hes => ih hes location) honly location
      hposition).map _

theorem computes_resolveReused (levels : Nat) {t : Tree} (ht : OnlyUses N t) (location : String) :
    Computes J (s.resolveReused levels t location)
      (Reuse.base find s.room levels t) := by
  induction levels generalizing t location with
  | zero => exact Computes.fail
  | succ levels ih =>
    exact computes_resolveTree (fun es location position hes => computes_resolveMapping hclosed
      hfinds (fun t location ht => ih ht location) (fun t t' => Reuse.base_lacks hclosed) _ hes
        location) ht location Steady.none

end Mappings

end Scope

end LayeredConfig
