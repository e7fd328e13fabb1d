import LayeredConfig.Proofs.Reuse.Computing
import LayeredConfig.Proofs.Reuse.Finishing
import LayeredConfig.Proofs.Tree.Spot

/-!
# Resolving a section in its place

The document is its own first source, so while one of its sections is resolved the sources change:
each mapping whose directives have been carried out is put back where it stands. `Rewrites` says of
a step that, begun with a tree at a path of the open section, it has a given value for a result and
leaves that value at the path and everything else as it was. What the section becomes is told by
`Reuse.mapping`, provided that what is pulled in does not depend on how far the section is resolved.
-/

namespace LayeredConfig

open Directive Tree

/-! ## An open section -/

/-- A document one section of which is being resolved, with the sources that follow it. -/
structure Frame where
  before : Entries
  name : String
  after : Entries
  others : List Tree
  fresh : Entries.has before (.str name) = false

namespace Frame

variable (F : Frame)

/-- The entries of the document when the section holds a tree. -/
def entries (content : Tree) : Entries := F.before ++ (.str F.name, content) :: F.after

/-- The sources then. -/
def sources (content : Tree) : List Tree := .map (F.entries content) :: F.others

/-- The path of a node of the section in the document. -/
def path (p : List Segment) : List Segment := .key F.name :: p

theorem get?_entries (content : Tree) :
    Entries.get? (F.entries content) (.str F.name) = some content :=
  Entries.get?_append_cons F.fresh

/-- What is put into the section is put into the document. -/
theorem replace?_path (value content : Tree) (p : List Segment) :
    replace? value (F.path p) (.map (F.entries content)) =
      (replace? value p content).map fun new => .map (F.entries new) := by
  rw [path, replace?, get?_entries, Option.bind_some]
  congr 1
  funext new
  rw [entries, Entries.modify_append F.fresh, entries]

end Frame

/-! ## Steps that rewrite -/

/-- From the sources with `start` at a path of the open section, which satisfies `J`, the step has
the value for a result, if there is one, and what comes of it stands at the path then. Otherwise the
step fails with an error in `E`. -/
def Rewrites {α : Type} (F : Frame) (J : Tree → Prop) (E : Error → Prop) (path : List Segment)
    (start : Tree) (final : α → Tree) (x : Resolving InWorld α) (value : Option α) : Prop :=
  ∀ p w content, p.sources = some (F.sources content) → J content →
    spot? path content = some start →
    (∀ a, value = some a → ∃ new, replace? (final a) path content = some new ∧ J new ∧
      outcome (x.run p) w = (.ok (a, { p with sources := some (F.sources new) }), w)) ∧
    (value = none → ∃ e w', E e ∧ outcome (x.run p) w = (.error e, w'))

namespace Rewrites

variable {α β : Type} {F : Frame} {J : Tree → Prop} {E : Error → Prop} {path : List Segment}
  {start : Tree}

theorem pure {final : α → Tree} {a : α} (h : final a = start) :
    Rewrites F J E path start final (pure a) (some a) := by
  intro p w content hp hJ hspot
  refine ⟨fun b hb => ?_, nofun⟩
  cases hb
  refine ⟨content, ?_, hJ, ?_⟩
  · rw [h]
    exact replace?_spot? hspot
  · rw [← hp]
    rfl

theorem bind {x : Resolving InWorld α} {f : α → Resolving InWorld β} {value : Option α}
    {g : α → Option β} {middle : α → Tree} {final : β → Tree}
    (hx : Rewrites F J E path start middle x value)
    (hf : ∀ a, value = some a → Rewrites F J E path (middle a) final (f a) (g a)) :
    Rewrites F J E path start final (x >>= f) (value.bind g) := by
  intro p w content hp hJ hspot
  rw [StateT.run_bind, outcome_bind]
  obtain ⟨hsome, hnone⟩ := hx p w content hp hJ hspot
  cases value with
  | none =>
    obtain ⟨e, w', he, hrun⟩ := hnone rfl
    rw [hrun]
    exact ⟨nofun, fun _ => ⟨e, w', he, rfl⟩⟩
  | some a =>
    obtain ⟨new, hnew, hJ', hrun⟩ := hsome a rfl
    rw [hrun]
    obtain ⟨hsome', hnone'⟩ :=
      hf a rfl { p with sources := some (F.sources new) } w new rfl hJ' (spot?_replace? hnew)
    refine ⟨fun b hb => ?_, hnone'⟩
    obtain ⟨new', hnew', hJ'', hrun'⟩ := hsome' b hb
    -- what stands at the path in the end covers what stood there in between
    exact ⟨new', (replace?_replace? hnew).symm.trans hnew', hJ'', hrun'⟩

/-- It is enough to know what the step does where there are sources. -/
theorem of_run {x y : Resolving InWorld α} {value : Option α} {final : α → Tree}
    (h : ∀ p w, p.sources.isSome = true → outcome (x.run p) w = outcome (y.run p) w)
    (hy : Rewrites F J E path start final y value) : Rewrites F J E path start final x value := by
  intro p w content hp hJ hspot
  rw [h p w (by rw [hp, Option.isSome_some])]
  exact hy p w content hp hJ hspot

theorem map {x : Resolving InWorld α} {value : Option α} {middle : α → Tree} {final : β → Tree}
    (f : α → β) (hfinal : ∀ a, final (f a) = middle a)
    (hx : Rewrites F J E path start middle x value) :
    Rewrites F J E path start final (do return f (← x)) (value.map f) := by
  rw [Option.map_eq_bind]
  exact hx.bind fun a _ => pure (hfinal a)

/-- A step within the value under a key of a mapping. -/
theorem entry {lead : Entries} (rest : Entries) {name : String} {v : Tree}
    {x : Resolving InWorld Tree} {value : Option Tree} (hlead : Entries.has lead (.str name) = false)
    (hx : Rewrites F J E (path ++ [.key name]) v id x value) :
    Rewrites F J E path (.map (lead ++ (.str name, v) :: rest))
      (fun v' => .map (lead ++ (.str name, v') :: rest)) x value := by
  intro p w content hp hJ hspot
  have hget : Entries.get? (lead ++ (.str name, v) :: rest) (.str name) = some v :=
    Entries.get?_append_cons hlead
  have hspot' : spot? (path ++ [.key name]) content = some v := by
    rw [spot?_append, hspot, Option.bind_some, spot?, hget, Option.bind_some, spot?]
  obtain ⟨hsome, hnone⟩ := hx p w content hp hJ hspot'
  refine ⟨fun v' hv' => ?_, hnone⟩
  obtain ⟨new, hnew, hJ', hrun⟩ := hsome v' hv'
  refine ⟨new, ?_, hJ', hrun⟩
  rw [replace?_append hspot, replace?, hget, Option.bind_some, replace?, Option.map_some,
    Entries.modify_append hlead, Option.bind_some] at hnew
  exact hnew

/-- A step within an item of a sequence. -/
theorem item (lead rest : List Tree) {t : Tree} {x : Resolving InWorld Tree} {value : Option Tree}
    (hx : Rewrites F J E (path ++ [.index lead.length]) t id x value) :
    Rewrites F J E path (.seq (lead ++ t :: rest)) (fun t' => .seq (lead ++ t' :: rest)) x
      value := by
  intro p w content hp hJ hspot
  have hget : (lead ++ t :: rest)[lead.length]? = some t := by simp
  have hspot' : spot? (path ++ [.index lead.length]) content = some t := by
    rw [spot?_append, hspot, Option.bind_some, spot?, hget, Option.bind_some, spot?]
  obtain ⟨hsome, hnone⟩ := hx p w content hp hJ hspot'
  refine ⟨fun t' ht' => ?_, hnone⟩
  obtain ⟨new, hnew, hJ', hrun⟩ := hsome t' ht'
  refine ⟨new, ?_, hJ', hrun⟩
  rw [replace?_append hspot, replace?, hget, Option.bind_some, replace?, Option.map_some,
    Option.bind_some] at hnew
  simpa using hnew

end Rewrites

/-! ## Resolving the section -/

namespace Scope

variable {s : Scope InWorld} {F : Frame} {J : Tree → Prop} {E : Error → Prop}
  {path : List Segment}

section Trees

variable {onward : MappingResolver InWorld} {g : Entries → Option Tree}

theorem rewrites_resolveEntries (lead : Entries) {es : Entries}
    (h : ∀ e ∈ es, ∀ location path, Rewrites F J E path e.2 id
      (resolveTree onward location (some (F.path path)) e.2) (Tree.traverse Reuse.uses g e.2))
    (htexts : ∀ e ∈ es, ∃ name, e.1 = .str name) (hdistinct : Entries.Distinct (lead ++ es))
    (location : String) :
    Rewrites F J E path (.map (lead ++ es)) (fun es' => .map (lead ++ es'))
      (resolveEntries onward location (some (F.path path)) es)
      (traverseEntries Reuse.uses g es) := by
  induction es generalizing lead with
  | nil =>
    unfold resolveEntries traverseEntries
    exact Rewrites.pure rfl
  | cons e rest ih =>
    obtain ⟨key, v⟩ := e
    obtain ⟨hfirst, hrest⟩ := List.forall_mem_cons.1 h
    obtain ⟨⟨name, hname⟩, hothers⟩ := List.forall_mem_cons.1 htexts
    obtain rfl : key = .str name := hname
    have hlead : Entries.has lead (.str name) = false := by
      rw [Entries.has, List.any_eq_false]
      intro e he
      rw [Bool.not_eq_true]
      exact (List.pairwise_append.1 hdistinct).2.2 e he _ List.mem_cons_self
    unfold resolveEntries traverseEntries
    refine (Rewrites.entry rest hlead (hfirst _ (path ++ [.key name]))).bind fun v' _ => ?_
    -- the entries behind are resolved with this one among those before them
    have hnext := ih (lead ++ [(.str name, v')]) hrest hothers (by
      rw [Entries.distinct_iff_keys] at hdistinct ⊢
      simpa [Entries.keys] using hdistinct)
    simp only [List.append_assoc, List.singleton_append] at hnext
    exact hnext.map _ fun _ => rfl

theorem rewrites_resolveItems (lead : List Tree) {ts : List Tree}
    (h : ∀ t ∈ ts, ∀ location path, Rewrites F J E path t id
      (resolveTree onward location (some (F.path path)) t) (Tree.traverse Reuse.uses g t))
    (location : String) :
    Rewrites F J E path (.seq (lead ++ ts)) (fun ts' => .seq (lead ++ ts'))
      (resolveItems onward location (some (F.path path)) lead.length ts)
      (traverseItems Reuse.uses g ts) := by
  induction ts generalizing lead with
  | nil =>
    unfold resolveItems traverseItems
    exact Rewrites.pure rfl
  | cons t rest ih =>
    obtain ⟨hfirst, hrest⟩ := List.forall_mem_cons.1 h
    unfold resolveItems traverseItems
    refine (Rewrites.item lead rest (hfirst _ (path ++ [.index lead.length]))).bind fun t' _ => ?_
    have hnext := ih (lead ++ [t']) hrest
    simp only [List.append_assoc, List.singleton_append, List.length_append,
      List.length_singleton] at hnext
    exact hnext.map _ fun _ => rfl

/-- A tree is resolved where it stands, if mappings with a `_use` are. -/
theorem rewrites_resolveTree {T : String → Prop} {n : Nat}
    (honward : ∀ es location path, Sectional T (.map es) →
      Entries.has es (.str useKey) = true → Reuse.nesting (.map es) ≤ n →
      Rewrites F J E path (.map es) id (onward es location (some (F.path path))) (g es)) {t : Tree}
    (ht : Sectional T t) (hnesting : Reuse.nesting t ≤ n) (location : String) :
    Rewrites F J E path t id (resolveTree onward location (some (F.path path)) t)
      (Tree.traverse Reuse.uses g t) := by
  induction t using Tree.induction generalizing location path with
  | map es ih =>
    unfold resolveTree Tree.traverse
    have hdirected : isDirected es = Entries.has es (.str useKey) := by
      simp [isDirected, Entries.without_iff_has.1 ht.without]
    rw [hdirected]
    split
    next huse => exact honward es location path ht huse hnesting
    next huse =>
      rw [Reuse.nesting, if_neg huse, Nat.zero_add, Reuse.nestingEntries_le] at hnesting
      refine Rewrites.map _ (fun _ => rfl) (rewrites_resolveEntries [] (fun e he location path =>
        ?_) (fun e he => ht.text he) (wellFormed_map.1 ht.wellFormed).1 location)
      exact (ih e he).2 (ht.value he) (hnesting e he) location
  | seq ts ih =>
    unfold resolveTree Tree.traverse
    rw [Reuse.nesting, Reuse.nestingItems_le] at hnesting
    refine Rewrites.map _ (fun _ => rfl) (rewrites_resolveItems [] (fun t hmem location path => ?_)
      location)
    exact ih t hmem (ht.item hmem) (hnesting t hmem) location
  | _ =>
    unfold resolveTree Tree.traverse
    exact Rewrites.pure rfl

end Trees

/-! ## Mappings -/

/-- What the open section pulls in does not depend on how far it has been resolved: the steps have
`pulled cur value` for their results. -/
structure Pulls (s : Scope InWorld) (F : Frame) (J : Tree → Prop) (E : Error → Prop)
    (T : String → Prop) (cur : Entries) (value : Tree → Option Tree)
    (resolve : Tree → String → Resolving InWorld Tree) : Prop where
  wellFormed : WellFormed (.map cur)
  finishes : Reuse.Finishes T cur value
  reused : ∀ {content path es names u}, J content → Sectional T (.map es) →
    spot? path content = some (.map es) → Entries.get? es (.str useKey) = some names →
    Reuse.target? names = some u → ∀ location p w, p.sources = some (F.sources content) →
    (∀ base, Reuse.pulled cur value u = some base →
      outcome ((s.reused resolve (F.sources content) names location Flattening.none).run p) w =
        (.ok (base, p), w)) ∧
    (Reuse.pulled cur value u = none → ∃ e w', E e ∧
      outcome ((s.reused resolve (F.sources content) names location Flattening.none).run p) w =
        (.error e, w'))
  kept : ∀ {content new path old es}, J content → spot? path content = some (.map old) →
    Sectional T (.map es) → replace? (.map es) path content = some new → J new

section Mappings

variable {T : String → Prop} {cur : Entries} {value : Tree → Option Tree}
  {resolve : Tree → String → Resolving InWorld Tree} (hpulls : Pulls s F J E T cur value resolve)
include hpulls

omit hpulls in
/-- A mapping that is put back changes the open section. -/
theorem rebind_run {p : Progress} {content new : Tree} {es : Entries}
    (hp : p.sources = some (F.sources content)) (hnew : replace? (.map es) path content = some new)
    (w : World) :
    outcome ((rebind (some (F.path path)) es).run p) w =
      (.ok ((), { p with sources := some (F.sources new) }), w) := by
  obtain ⟨sources, ledger⟩ := p
  obtain rfl : sources = _ := hp
  change (Except.ok ((), Progress.mk (some ((replace? (.map es) (F.path path)
    (.map (F.entries content))).getD _ :: F.others)) ledger), w) = _
  rw [F.replace?_path, hnew]
  rfl

/-- Carrying out a `_use` puts what comes of the mapping into its place. -/
theorem rewrites_useStep {es : Entries} (hes : Sectional T (.map es)) (location : String) :
    Rewrites F J E path (.map es) Tree.map
      (s.useStep resolve Flattening.none location (some (F.path path)) es)
      (Reuse.carryOut (Reuse.find cur) value es) := by
  intro p w content hp hJ hspot
  rw [useStep_run_eq, hp]
  cases hvalue : Entries.get? es (.str useKey) with
  | none =>
    rw [Reuse.carryOut, hvalue]
    exact Rewrites.pure rfl p w content hp hJ hspot
  | some names =>
    obtain ⟨u, htarget, hu⟩ := hes.target hvalue
    rw [Reuse.carryOut_find hpulls.wellFormed hvalue htarget]
    dsimp only
    obtain ⟨hsome, hnone⟩ := hpulls.reused hJ hes hspot hvalue htarget location p w hp
    rw [StateT.run_bind, outcome_bind]
    cases hpulled : Reuse.pulled cur value u with
    | none =>
      obtain ⟨e, w', he, hrun⟩ := hnone hpulled
      rw [hrun]
      exact ⟨fun _ hvalue => (by cases hvalue), fun _ => ⟨e, w', he, rfl⟩⟩
    | some base =>
      rw [hsome base hpulled]
      refine ⟨fun es' hes' => ?_, fun hnone => by cases hnone⟩
      obtain rfl := Option.some_inj.1 hes'
      obtain ⟨new, hnew⟩ := exists_replace? hspot
        (.map (underlay base (Entries.erase es (.str useKey))))
      have hunder := Sectional.underlay (hpulls.finishes u hu base hpulled) hes
      refine ⟨new, hnew, hpulls.kept hJ hspot hunder hnew, ?_⟩
      dsimp only
      rw [StateT.run_bind, outcome_bind, rebind_run hp hnew]
      rfl

theorem rewrites_substitute {es : Entries} (hes : Sectional T (.map es)) (passes : Nat)
    (location : String) :
    Rewrites F J E path (.map es) Tree.map
      (s.substitute resolve Flattening.none location (some (F.path path)) (passes + 1) es)
      (Reuse.carryOut (Reuse.find cur) value es) := by
  have hinclude : ∀ {es}, Sectional T (.map es) →
      (s.includes && Entries.has es (.str includeKey)) = false := by
    intro es hes
    rw [Entries.without_iff_has.1 hes.without includeKey List.mem_cons_self, Bool.and_false]
  have hdone : ∀ passes es, Sectional T (.map es) → Entries.has es (.str useKey) = false →
      ∀ p w, outcome ((s.substitute resolve Flattening.none location (some (F.path path)) passes
        es).run p) w = outcome ((pure es : Resolving InWorld Entries).run p) w := by
    intro passes es hes huse p w
    unfold substitute
    rw [StateT.run_bind, outcome_bind, isPending_run, hinclude hes, huse, Bool.and_false]
    rfl
  by_cases huse : Entries.has es (.str useKey) = true
  · have hsteps : Rewrites F J E path (.map es) Tree.map (do
          let es ← s.useStep resolve Flattening.none location (some (F.path path)) es
          s.substitute resolve Flattening.none location (some (F.path path)) passes es)
        ((Reuse.carryOut (Reuse.find cur) value es).bind some) := by
      refine (rewrites_useStep hpulls hes location).bind fun es' hes' => ?_
      obtain ⟨hsectional, huse', -⟩ :=
        Reuse.carryOut_sectional hpulls.wellFormed hpulls.finishes hes hes'
      exact Rewrites.of_run (fun p w _ => hdone passes es' hsectional huse' p w)
        (Rewrites.pure rfl)
    rw [Option.bind_fun_some] at hsteps
    refine Rewrites.of_run (fun p w hsources => ?_) hsteps
    rw [substitute, StateT.run_bind, outcome_bind, isPending_run, huse, hsources, Bool.and_self,
      Bool.or_true]
    change outcome ((s.includeStep Flattening.none location (some (F.path path)) es >>= fun es =>
      s.useStep resolve Flattening.none location (some (F.path path)) es >>= fun es =>
        s.substitute resolve Flattening.none location (some (F.path path)) passes es).run p) w = _
    rw [StateT.run_bind, outcome_bind, includeStep_run (hinclude hes)]
  · rw [Bool.not_eq_true] at huse
    rw [Reuse.carryOut_of_has huse]
    exact Rewrites.of_run (fun p w _ => hdone _ es hes huse p w) (Rewrites.pure rfl)

theorem rewrites_resolveMapping {room : Nat} {es : Entries} (hes : Sectional T (.map es))
    (huse : Entries.has es (.str useKey) = true) (hroom : Reuse.nesting (.map es) ≤ room)
    (location : String) :
    Rewrites F J E path (.map es) id
      (s.resolveMapping resolve room es location (some (F.path path)))
      (Reuse.mapping (Reuse.find cur) value room es) := by
  rw [Reuse.nesting, if_pos huse] at hroom
  induction room generalizing es location path with
  | zero => omega
  | succ room ih =>
    unfold resolveMapping Reuse.mapping
    have hflattening : Entries.Without [flattenKey, separatorKey] es := fun e he name hname =>
      hes.without e he name (List.mem_cons_of_mem _ hname)
    rw [Flattening.take_of_without hflattening]
    change Rewrites F J E path (.map es) id (do
      let es ← s.substitute resolve Flattening.none location (some (F.path path)) substitutionLimit
        es
      return .map (← resolveEntries (s.resolveMapping resolve room) location (some (F.path path))
        es)) _
    refine (rewrites_substitute hpulls hes _ location).bind fun es' hes' => ?_
    obtain ⟨hsectional, huse', hnesting⟩ :=
      Reuse.carryOut_sectional hpulls.wellFormed hpulls.finishes hes hes'
    have hvalues := Reuse.nestingEntries_le.1 (Nat.le_refl (Reuse.nestingEntries es'))
    refine Rewrites.map _ (fun _ => rfl) (rewrites_resolveEntries [] (fun e he location path => ?_)
      (fun e he => hsectional.text he) (wellFormed_map.1 hsectional.wellFormed).1 location)
    refine rewrites_resolveTree (n := room) (fun es location path hes huse hn => ?_)
      (hsectional.value he) ?_ location
    · exact ih hes huse (by rwa [Reuse.nesting, if_pos huse] at hn) location
    · have := hvalues e he
      omega

end Mappings

end Scope

end LayeredConfig
