import LayeredConfig.Proofs.OwnValues
import LayeredConfig.Proofs.Reuse.Value

/-!
# Trees whose only directives are uses

`OnlyUses N t` says that `t` has no other directives than `_use`s of the sections in `N`. Where
there are no sources such a tree is resolved to itself: that is how an included file keeps its
`_use` directives for the document that includes it. Where there are sources no directive is left.
-/

namespace LayeredConfig

open Directive Tree

/-! ## Trees that only reuse sections -/

/-- The only directives in the tree are `_use`s of the names in `N`. -/
def OnlyUses (N : String → Prop) (t : Tree) : Prop :=
  t.Everywhere fun key value =>
    (∀ name ∈ [includeKey, flattenKey, separatorKey], key ≠ .str name) ∧
      (key = .str useKey → ∀ names, Directive.names useKey value = .ok names → ∀ n ∈ names, N n)

section OnlyUses

variable {N : String → Prop}

instance [DecidablePred N] (t : Tree) : Decidable (OnlyUses N t) :=
  have (value : Tree) : Decidable
      (∀ names, Directive.names useKey value = .ok names → ∀ n ∈ names, N n) :=
    match Directive.names useKey value with
    | .ok names => decidable_of_iff (∀ n ∈ names, N n) (by simp)
    | .error _ => .isTrue nofun
  inferInstanceAs (Decidable (t.Everywhere _))

theorem layered_onlyUses (N : String → Prop) : Layered fun key value =>
    (∀ name ∈ [includeKey, flattenKey, separatorKey], key ≠ .str name) ∧
      (key = .str useKey → ∀ names, Directive.names useKey value = .ok names →
        ∀ n ∈ names, N n) where
  respell hsame _ h := by
    refine ⟨fun name hname => ?_, ?_⟩
    · rintro rfl
      exact h.1 name hname (str_same.1 hsame)
    · rintro rfl
      exact h.2 (str_same.1 hsame)
  merged {_ below above} h := by
    refine ⟨h.1, fun huse names hnames => h.2 huse names ?_⟩
    cases above with
    | map es =>
      -- two mappings merge into a mapping, which names nothing
      cases below <;> simp [merge, Directive.names] at hnames
    | _ => rwa [merge_of_not_map (by simp)] at hnames

theorem OnlyUses.merge {base overlay : Tree} (hbase : OnlyUses N base)
    (hoverlay : OnlyUses N overlay) : OnlyUses N (base.merge overlay) :=
  Everywhere.merge (layered_onlyUses N) hbase hoverlay

theorem OnlyUses.foldl_merge {trees : List Tree} (h : ∀ t ∈ trees, OnlyUses N t) :
    OnlyUses N (trees.foldl Tree.merge .empty) :=
  List.foldlRecOn trees Tree.merge everywhere_empty fun _ hmerged t ht => hmerged.merge (h t ht)

theorem Tree.Lacks.onlyUses {t : Tree} (h : t.Lacks all) : OnlyUses N t := by
  refine Everywhere.mono (fun key value hkey => ⟨fun name hname => hkey name ?_, fun huse => ?_⟩)
    t h
  · simp only [List.mem_cons, all] at hname ⊢
    grind
  · exact absurd huse (hkey useKey (by simp [all]))

theorem OnlyUses.values {es : Entries} (h : OnlyUses N (.map es)) : ∀ e ∈ es, OnlyUses N e.2 :=
  fun e he => (everywhere_map.1 h e he).2

theorem OnlyUses.without {es : Entries} (h : OnlyUses N (.map es)) :
    Entries.Without [includeKey, flattenKey, separatorKey] es :=
  fun e he => (everywhere_map.1 h e he).1.1

/-- A mapping without `_use` has no directive. -/
theorem OnlyUses.without_all {es : Entries} (h : OnlyUses N (.map es))
    (huse : Entries.Without [useKey] es) : Entries.Without all es := by
  intro e he name hname
  refine (h.without.append huse) e he name ?_
  simp only [all, List.mem_append, List.mem_cons] at hname ⊢
  grind

theorem OnlyUses.names {es : Entries} (h : OnlyUses N (.map es)) {value : Tree}
    (hvalue : Entries.get? es (.str useKey) = some value) {names : List String}
    (hnames : Directive.names useKey value = .ok names) : ∀ name ∈ names, N name := by
  obtain ⟨k, hmem, hsame⟩ := Entries.mem_of_get? hvalue
  exact (everywhere_map.1 h _ hmem).1.2 (same_str.1 hsame) names hnames

/-- Placing a tree without directives beneath a mapping, with its `_use` taken off. -/
theorem OnlyUses.underlay {base : Tree} {es : Entries} (hbase : base.Lacks all)
    (h : OnlyUses N (.map es)) :
    OnlyUses N (.map (Tree.underlay base (Entries.erase es (.str useKey)))) :=
  Everywhere.underlay (layered_onlyUses N) hbase.onlyUses (Everywhere.erase h _)

end OnlyUses

/-- A mapping that only includes files, besides what it uses, asks for no flattening. -/
theorem OnlyUses.take_eq {N : String → Prop} {es : Entries}
    (h : OnlyUses N (.map (Entries.erase es (.str includeKey)))) :
    Flattening.take es = (es, .ok Flattening.none) := by
  refine Flattening.take_of_without fun e he name hname => ?_
  by_cases hkey : e.1 = .str includeKey
  · rw [hkey]
    rintro ⟨⟩
    revert hname
    decide
  · have hmem := Entries.mem_erase.2 ⟨he, same_str_eq_false.2 hkey⟩
    exact h.without e hmem name (List.mem_cons_of_mem _ hname)

/-! ## Uses that are left alone -/

/-- From sources in `J` the step has no other result, and the sources stay in `J`. -/
def Returns {α : Type} (J : Option (List Tree) → Prop) (x : Resolving InWorld α) (a : α) : Prop :=
  ∀ p w b p' w', J p.sources → outcome (x.run p) w = (.ok (b, p'), w') → b = a ∧ J p'.sources

namespace Returns

variable {α β : Type} {J : Option (List Tree) → Prop}

theorem pure (a : α) : Returns J (pure a) a := by
  rintro p w _ _ _ hp ⟨⟩
  exact ⟨rfl, hp⟩

theorem fail {s : Scope InWorld} {location : String} {reason : Unresolved} {a : α} :
    Returns J (s.fail location reason) a := fun _ _ _ _ _ _ h => by cases h

theorem bind {x : Resolving InWorld α} {f : α → Resolving InWorld β} {a : α} {b : β}
    (hx : Returns J x a) (hf : Returns J (f a) b) : Returns J (x >>= f) b := by
  intro p w c p' w' hp hrun
  obtain ⟨a', p₁, w₁, hx₁, hf₁⟩ := run_bind_ok hrun
  obtain ⟨rfl, hp₁⟩ := hx p w a' p₁ w₁ hp hx₁
  exact hf p₁ w₁ c p' w' hp₁ hf₁

end Returns

namespace Scope

variable {s : Scope InWorld} {N : String → Prop} {resolve : Tree → String → Resolving InWorld Tree}

section Unresolved

variable {onward : MappingResolver InWorld} {J : Option (List Tree) → Prop}

theorem returns_resolveEntries {es : Entries}
    (h : ∀ e ∈ es, ∀ location position,
      Returns J (resolveTree onward location position e.2) e.2)
    (location : String) (position : Position) :
    Returns J (resolveEntries onward location position es) es := by
  induction es with
  | nil =>
    unfold resolveEntries
    exact Returns.pure []
  | cons e rest ih =>
    obtain ⟨hfirst, hrest⟩ := List.forall_mem_cons.1 h
    unfold resolveEntries
    exact (hfirst _ _).bind ((ih hrest).bind (Returns.pure _))

theorem returns_resolveItems {ts : List Tree}
    (h : ∀ t ∈ ts, ∀ location position, Returns J (resolveTree onward location position t) t)
    (location : String) (position : Position) (i : Nat) :
    Returns J (resolveItems onward location position i ts) ts := by
  induction ts generalizing i with
  | nil =>
    unfold resolveItems
    exact Returns.pure []
  | cons t rest ih =>
    obtain ⟨hfirst, hrest⟩ := List.forall_mem_cons.1 h
    unfold resolveItems
    exact (hfirst _ _).bind ((ih hrest _).bind (Returns.pure _))

theorem returns_resolveTree
    (honward : ∀ es location position, OnlyUses N (.map es) →
      Returns J (onward es location position) (.map es)) {t : Tree} (ht : OnlyUses N t)
    (location : String) (position : Position) :
    Returns J (resolveTree onward location position t) t := by
  induction t using Tree.induction generalizing location position with
  | map es ih =>
    unfold resolveTree
    split
    · exact honward es location position ht
    · exact (returns_resolveEntries (fun e he => (ih e he).2 (ht.values e he)) location
        position).bind (Returns.pure _)
  | seq ts ih =>
    unfold resolveTree
    exact (returns_resolveItems (fun t ht' => ih t ht' (everywhere_seq.1 ht t ht')) location
      position 0).bind (Returns.pure _)
  | _ =>
    unfold resolveTree
    exact Returns.pure _

end Unresolved

/-- Without sources a `_use` is left where it is. -/
theorem returns_resolveMapping (room : Nat) {es : Entries} (hes : OnlyUses N (.map es))
    (location : String) (position : Position) :
    Returns (· = none) (s.resolveMapping resolve room es location position) (.map es) := by
  induction room generalizing es location position with
  | zero => exact Returns.fail
  | succ room ih =>
    have hsubstitute : Returns (· = none)
        (s.substitute resolve Flattening.none location position substitutionLimit es) es := by
      have hpending : Returns (· = none) (s.isPending es) false := by
        intro p w b p' w' hp hrun
        have hinclude := Entries.without_iff_has.1 hes.without includeKey List.mem_cons_self
        rw [isPending_run, hinclude, hp, Bool.and_false] at hrun
        cases hrun
        exact ⟨rfl, hp⟩
      unfold substitute
      exact hpending.bind (Returns.pure es)
    rw [resolveMapping]
    dsimp only
    rw [Flattening.take_of_without fun e he name hname =>
      hes.without e he name (List.mem_cons_of_mem _ hname)]
    refine (Returns.pure Flattening.none).bind (hsubstitute.bind (Returns.bind ?_ (Returns.pure _)))
    exact returns_resolveEntries (fun e he => returns_resolveTree
      (fun es location position hes => ih hes location position) (hes.values e he)) location
      position

end Scope

/-- An included file whose only directives are `_use`s is loaded as it stands, unless the cache has
the answer. -/
theorem Settings.loadFile_deferred {s : Settings} {budget : Nat} {path : FilePath}
    {chain : List FilePath} {location : String} {t : Tree} {ledger : Ledger} {w w' : World}
    (h : outcome (s.loadFile (budget + 1) (s.includedRequest none path chain location)) w =
      (.ok (t, ledger), w')) :
    outcome (cached (s.storeFor? (some (s.keys "included" none))) [path]) w =
      (.ok (some (t, ledger)), w') ∨
    ∃ document, ∃ w₁ : World, (w₁.document path).1 = some document ∧
      ((∃ N, OnlyUses N document) → t = document) := by
  rcases loadFile_ok h with
    hanswer | ⟨document, added, tree, consulted, w₁, w₂, w₃, -, hread, -, hrun, hkeep⟩
  · exact .inl hanswer
  · obtain rfl := keep_fst hkeep
    refine .inr ⟨document, w₁, hread, fun ⟨N, honly⟩ => ?_⟩
    refine (withPath_none path tree).trans ?_
    unfold resolveFor at hrun
    obtain ⟨room, w₄, -, hresolve⟩ := outcome_bind_ok hrun
    obtain ⟨⟨t, p⟩, w₅, htree, hpure⟩ := outcome_bind_ok hresolve
    cases hpure
    exact (Scope.returns_resolveTree (fun es location position hes =>
      Scope.returns_resolveMapping _ hes location position) honly _ _ _ _ _ _ _ rfl htree).1

/-! ## What is left of directives -/

namespace Reuse

variable {N : String → Prop} {find : String → Option Tree} {resolve : Tree → Option Tree}
  (hclosed : ∀ name, N name → ∀ t, find name = some t → OnlyUses N t)
  (hresolve : ∀ t t', OnlyUses N t → resolve t = some t' → t'.Lacks all)

theorem tree_lacks {onward : Entries → Option Tree}
    (honward : ∀ es t, OnlyUses N (.map es) → onward es = some t → t.Lacks all) {t t' : Tree}
    (ht : OnlyUses N t) (h : Tree.traverse uses onward t = some t') : t'.Lacks all := by
  induction t using Tree.induction generalizing t' with
  | map es ih =>
    by_cases huse : Entries.has es (.str useKey) = true
    · rw [traverse_stops huse] at h
      exact honward es t' ht h
    · have hnone : Entries.has es (.str useKey) = false := by simpa using huse
      obtain ⟨es', hes', rfl⟩ := (traverse_map hnone).1 h
      have hrelated := forall₂_of_mem (traverseEntries_eq_some.1 hes') fun e he e' h =>
        And.intro h.1 (And.intro he ((ih e he).2 (ht.values e he) h.2))
      refine Entries.lacks_map.2 ⟨fun e' he' name hname => ?_, fun e' he' => ?_⟩
      · obtain ⟨e, -, hkey, he, -⟩ := exists_of_mem_forall₂ hrelated he'
        have hwithout : Entries.Without [useKey] es :=
          Entries.without_iff_has.2 (by simpa using hnone)
        rw [hkey]
        exact ht.without_all hwithout e he name hname
      · obtain ⟨e, -, -, -, hlacks⟩ := exists_of_mem_forall₂ hrelated he'
        exact hlacks
  | seq ts ih =>
    rw [Tree.traverse] at h
    obtain ⟨ts', hts', rfl⟩ := Option.map_eq_some_iff.1 h
    refine everywhere_seq.2 fun t' ht' => ?_
    have hrelated := forall₂_of_mem (traverseItems_eq_some.1 hts') fun t hmem t' h =>
      ih t hmem (everywhere_seq.1 ht t hmem) h
    obtain ⟨t, -, hlacks⟩ := exists_of_mem_forall₂ hrelated ht'
    exact hlacks
  | _ =>
    obtain rfl : _ = t' := by simpa [Tree.traverse] using h
    trivial

include hclosed in
theorem sections_onlyUses {merged t : Tree} {names : List String} (hmerged : OnlyUses N merged)
    (hnames : ∀ name ∈ names, N name) (h : sections find merged names = some t) :
    OnlyUses N t := by
  induction names generalizing merged with
  | nil =>
    cases h
    exact hmerged
  | cons name rest ih =>
    obtain ⟨hname, hrest⟩ := List.forall_mem_cons.1 hnames
    obtain ⟨found, hfound, h⟩ := Option.bind_eq_some_iff.1 h
    split at h
    · exact ih (hmerged.merge (hclosed name hname found hfound)) hrest h
    · cases h

include hclosed hresolve

/-- When the `_use` of a mapping has been carried out, it has no directive. -/
theorem carryOut_without {es es' : Entries} (hes : OnlyUses N (.map es))
    (h : carryOut find resolve es = some es') :
    OnlyUses N (.map es') ∧ Entries.Without all es' := by
  cases hvalue : Entries.get? es (.str useKey) with
  | none =>
    rw [carryOut, hvalue] at h
    cases h
    refine ⟨hes, hes.without_all (Entries.without_iff_has.2 ?_)⟩
    simp [Entries.has_eq_isSome, hvalue]
  | some value =>
    obtain ⟨names, merged, below, hnames, hmerged, hbelow, rfl⟩ := (carryOut_eq_some hvalue).1 h
    have hlacks : below.Lacks all := hresolve merged below
      (sections_onlyUses hclosed everywhere_empty (hes.names hvalue hnames) hmerged) hbelow
    have hunder := hes.underlay hlacks
    refine ⟨hunder, hunder.without_all ?_⟩
    exact Entries.Without.underlay (hlacks.mono (by simp [all])) (Entries.without_erase_self es _)

theorem mapping_lacks {room : Nat} {es : Entries} {t : Tree} (hes : OnlyUses N (.map es))
    (h : mapping find resolve room es = some t) : t.Lacks all := by
  induction room generalizing es t with
  | zero => cases h
  | succ room ih =>
    rw [mapping] at h
    obtain ⟨es₁, hes₁, hvalues⟩ := Option.bind_eq_some_iff.1 h
    obtain ⟨honly, hwithout⟩ := carryOut_without hclosed hresolve hes hes₁
    have huse : Entries.has es₁ (.str useKey) = false :=
      Entries.without_iff_has.1 hwithout useKey (by simp [all])
    refine tree_lacks (fun es t => ih) honly ?_
    rw [traverse_passes huse, hvalues]

omit hresolve in
theorem base_lacks {room levels : Nat} {t t' : Tree} (ht : OnlyUses N t)
    (h : base find room levels t = some t') : t'.Lacks all := by
  induction levels generalizing t t' with
  | zero => cases h
  | succ levels ih =>
    exact tree_lacks (fun es t => mapping_lacks hclosed fun t t' => ih) ht h

end Reuse

end LayeredConfig
