import LayeredConfig.Proofs.Reuse.Depth

/-!
# The bound on reuse

In a document whose sections are mappings, and which has no directive but `_use`s that name one of
them each, nothing can go wrong but that sections use one another too deep. So a load fails with
that error if the uses lead round in a circle, and it succeeds if no path of uses has more steps
than `substitutionLimit`.
-/

namespace LayeredConfig

open Directive Tree Reuse

/-- The error of a resolution, for a file, that carries out directives too often. -/
def GivesUp (owner : FilePath) (e : Error) : Prop :=
  ∃ location, e = .unresolved owner location .tooManySubstitutions

/-- A computed result has what the value has. -/
theorem Ends.of_value {α : Type} {K : World → Prop} {J : Option (List Tree) → Prop}
    {E : Error → Prop} {Q Q' : α → Prop} {x : Resolving InWorld α} {value : Option α}
    (h : Ends K J E x Q) (hvalue : Computes J x value) (hQ : ∀ a, value = some a → Q' a) :
    Ends K J E x Q' := by
  intro p w hJ hK
  obtain ⟨hok, herror⟩ := h p w hJ hK
  refine ⟨fun a p' w' hrun => ?_, herror⟩
  obtain ⟨-, hrest⟩ := hok a p' w' hrun
  exact ⟨hQ a (hvalue.value_eq hJ hrun), hrest⟩

namespace Scope

variable {s : Scope InWorld} {T : String → Prop} {es cur : Entries} {others : List Tree}
  {resolve : Tree → String → Resolving InWorld Tree}

/-- The step, in a document, has a result in `Q` or gives up. -/
def EndsIn (s : Scope InWorld) (cur : Entries) (others : List Tree) {α : Type}
    (x : Resolving InWorld α) (Q : α → Prop) : Prop :=
  Ends (fun _ => True) (· = some (.map cur :: others)) (GivesUp s.owner) x Q

section Limit

variable (hes : Sectioned others T es) (hform : Form T es cur)
  (hmapping : ∀ u, T u → ∃ t, section? cur u = some t ∧ t.isMapping = true)
include hes hform hmapping

theorem endsIn_reused
    (hresolve : ∀ t location, Sectional T t → s.EndsIn cur others (resolve t location) Finished)
    {names : Tree} {u : String} (htarget : target? names = some u) (hu : T u) (location : String) :
    s.EndsIn cur others
      (s.reused resolve (.map cur :: others) names location Flattening.none) Finished := by
  obtain ⟨name, hname, hkey⟩ := target?_eq_some.1 htarget
  obtain ⟨t, ht, hmap⟩ := hmapping u hu
  have hfound : sectionNamed? (.map cur :: others) name = some t := by
    rw [sectionNamed?_of_form hes hform ⟨u, hkey, hu⟩, Reuse.find, hkey, Option.bind_some, ht]
  have hsectional := hform.sectional.section? ht
  unfold reused
  refine (Ends.orFail fun fault hfault => ?_).bind fun ns hns => ?_
  · rw [hname] at hfault
    cases hfault
  · obtain rfl : [name] = ns := Except.ok.inj (hname.symm.trans hns)
    refine (ends_mergeSections (H := Sectional T) (fun h h' => h.merge h') ?_ ?_ ?_ ?_).bind
      fun merged hmerged => ?_
    · rintro _ (⟨⟩ | ⟨_, ⟨⟩⟩) hnone
      cases hfound.symm.trans hnone
    · rintro _ (⟨⟩ | ⟨_, ⟨⟩⟩) found hsome hnot
      cases hfound.symm.trans hsome
      cases hmap.symm.trans hnot
    · rintro _ (⟨⟩ | ⟨_, ⟨⟩⟩) found hsome
      cases hfound.symm.trans hsome
      exact hsectional
    · exact ⟨wellFormed_empty, everywhere_empty, everywhere_empty, everywhere_empty⟩
    · refine (hresolve merged location hmerged).bind fun base hbase => Ends.pure ?_
      rwa [show Flattening.none.depth = 0 from rfl, flatten_zero]

omit hes hform hmapping in
theorem endsIn_resolveTree {onward : MappingResolver InWorld} {n : Nat}
    (honward : ∀ node location, Sectional T (.map node) → Entries.has node (.str useKey) = true →
      nesting (.map node) ≤ n → s.EndsIn cur others (onward node location none) fun _ => True)
    {t : Tree} (ht : Sectional T t) (hnesting : nesting t ≤ n) (location : String)
    {position : Position} (hposition : position = none) :
    s.EndsIn cur others (resolveTree onward location position t) fun _ => True := by
  have hdirected : ∀ {es}, Sectional T (.map es) →
      isDirected es = Entries.has es (.str useKey) := fun h => by
    simp [isDirected, Entries.without_iff_has.1 h.without]
  refine ends_resolveTree (P := fun t => Sectional T t ∧ nesting t ≤ n) (H := (· = none))
    (by rintro _ _ rfl; rfl) (by rintro _ _ rfl; rfl) (fun es hundirected h e he => ?_)
    (fun ts h t hmem => ?_) (fun es location position hdir h hposition => ?_) ⟨ht, hnesting⟩
    location hposition
  · obtain ⟨hes, hn⟩ := h
    rw [hdirected hes] at hundirected
    rw [nesting, hundirected, if_neg (by simp), Nat.zero_add, nestingEntries_le] at hn
    exact ⟨hes.value he, hn e he⟩
  · obtain ⟨hts, hn⟩ := h
    rw [nesting, nestingItems_le] at hn
    exact ⟨hts.item hmem, hn t hmem⟩
  · obtain ⟨hes, hn⟩ := h
    rw [hdirected hes] at hdir
    rw [hposition]
    exact honward es location hes hdir hn

theorem endsIn_resolveMapping
    (hresolve : ∀ t location, Sectional T t → s.EndsIn cur others (resolve t location) Finished)
    {room : Nat} {node : Entries} (hnode : Sectional T (.map node))
    (huse : Entries.has node (.str useKey) = true) (hroom : nesting (.map node) ≤ room)
    (location : String) :
    s.EndsIn cur others (s.resolveMapping resolve room node location none) fun _ => True := by
  rw [nesting, if_pos huse] at hroom
  induction room generalizing node location with
  | zero => omega
  | succ room ih =>
    unfold resolveMapping
    have hflattening : Entries.Without [flattenKey, separatorKey] node := fun e he name hname =>
      hnode.without e he name (List.mem_cons_of_mem _ hname)
    rw [Flattening.take_of_without hflattening]
    let I : Entries → Prop := fun es => Sectional T (.map es) ∧ nestingEntries es ≤ room
    have hinclude : ∀ {es}, I es → s.EndsIn cur others
        (s.includeStep Flattening.none location none es) I := by
      intro es hI
      have hnone : (s.includes && Entries.has es (.str includeKey)) = false := by
        rw [Entries.without_iff_has.1 hI.1.without includeKey List.mem_cons_self, Bool.and_false]
      exact Ends.progress (includeStep_run hnone) fun _ hp => ⟨hI, hp⟩
    have hstep : ∀ {es}, I es → s.EndsIn cur others
        (s.useStep resolve Flattening.none location none es) I := by
      refine ends_useStep (G := Finished) (fun {sources es names} hsources hI hnames => ?_)
        (fun {base es} hI _ hbase => ?_) fun _ => Ends.pure trivial
      · obtain rfl := Option.some_inj.1 hsources
        obtain ⟨u, htarget, hu⟩ := hI.1.target hnames
        exact endsIn_reused hes hform hmapping hresolve htarget hu location
      · exact ⟨Sectional.underlay hbase hI.1,
          Nat.le_trans (nestingEntries_underlay hbase.wellFormed hbase.lacks_use hI.1.wellFormed)
            hI.2⟩
    have hstart : I node := ⟨hnode, by omega⟩
    refine (Ends.pure (Q := (· = Flattening.none)) rfl).bind ?_
    rintro _ rfl
    refine (ends_substitute ⟨location, rfl⟩ hinclude hstep _ hstart).bind fun es' hI => ?_
    have hvalues := nestingEntries_le.1 hI.2
    refine (ends_resolveEntries (H := (· = none)) (by rintro _ _ rfl; rfl)
      (fun e he location position hposition => ?_) location rfl).bind fun _ _ => Ends.pure trivial
    refine endsIn_resolveTree (fun node location hnode huse hn => ?_)
      (hI.1.value he) (hvalues e he) location hposition
    exact ih hnode huse (by rwa [nesting, if_pos huse] at hn) location

/-- Resolving a section gives it in finished form, or gives up. -/
theorem endsIn_resolveReused (levels : Nat) {t : Tree} (ht : Sectional T t) (location : String) :
    s.EndsIn cur others (s.resolveReused levels t location) Finished := by
  induction levels generalizing t location with
  | zero => exact Ends.fail ⟨location, rfl⟩
  | succ levels ih =>
    have hclosed : ∀ name, NameIn T name → ∀ t, Reuse.find cur name = some t →
        OnlyUses (NameIn T) t := by
      intro name _ t ht
      obtain ⟨v, -, ht⟩ := Option.bind_eq_some_iff.1 ht
      exact (hform.sectional.section? ht).onlyUses
    have hfinds : ∀ sources, sources = some (.map cur :: others) →
        Finds (NameIn T) (Reuse.find cur) sources := by
      rintro _ rfl
      exact ⟨_, rfl, fun name => sectionNamed?_of_form hes hform⟩
    have hvalue := computes_resolveReused (s := s) (J := (· = some (.map cur :: others))) hclosed
      hfinds (levels + 1) ht.onlyUses location
    refine Ends.of_value (Q := fun _ => True) ?_ hvalue fun a ha =>
      base_finished hform.sectional ht ha
    exact endsIn_resolveTree (fun node location hnode huse hn => endsIn_resolveMapping hes hform
      hmapping (fun t location ht => ih ht location) hnode huse hn location) ht
      (Nat.le_trans (nesting_le_nodeCount t) (Nat.le_add_left _ _)) location rfl

end Limit

/-- If all sections that may be used are mappings, pulling one in can only fail by giving up. -/
theorem failsWithin_givesUp (hes : Sectioned others T es)
    (hmapping : ∀ u, T u → ∃ t, section? es u = some t ∧ t.isMapping = true) (levels : Nat) :
    s.FailsWithin levels (GivesUp s.owner) T others es := by
  intro cur hform names u htarget hu location p w e w' hp hrun
  have hmapping' : ∀ u, T u → ∃ t, section? cur u = some t ∧ t.isMapping = true := by
    intro u hu
    obtain ⟨raw, hraw, hmap⟩ := hmapping u hu
    have halike := hform.alike u hu
    rw [hraw, Option.map_some, hmap] at halike
    exact Option.map_eq_some_iff.1 halike
  exact ((endsIn_reused hes hform hmapping' (fun t location ht => endsIn_resolveReused hes hform
    hmapping' levels ht location) htarget hu location) p w hp trivial).2 e w' hrun

end Scope

/-! ## Loading -/

/-- A document whose root has no directive, and which has no other directives than `_use`s that name
one mapping of the document each, is loaded if no path of uses has more than `substitutionLimit`
steps, and the load gives up if the uses lead round in a circle. -/
theorem reuse_bound_is_exact (s : Settings) (o : LoadOptions) (path : FilePath) (w : World)
    {es : Entries} (hself : o.selfReferences = true)
    (hreads : s.Reads o path w (.map es)) (hroot : Scope.isDirected es = false)
    (huses : Sectional (HasMapping es) (.map es)) :
    (∀ u, Relation.TransGen (Uses es) u u → ∃ location w', outcome (s.load path o) w =
      (.error (.unresolved (FilePath.normalize w.directory path) location
        .tooManySubstitutions), w')) ∧
    ((∀ u path, List.IsChain (Uses es) (u :: path) → path.length ≤ substitutionLimit) →
      ∃ tree ledger w', outcome (s.load path o) w = (.ok (tree, ledger), w')) := by
  have hmapping : ∀ u, HasMapping es u → ∃ t, section? es u = some t ∧ t.isMapping = true :=
    fun u hu => exists_section?_of_hasMapping hu
  have hundirected : Entries.has es (.str useKey) = false := by
    rw [Scope.isDirected, List.any_eq_false] at hroot
    simpa using hroot useKey (by simp)
  have hes : Sectioned (o.sources.getD []) (HasMapping es) es := by
    refine ⟨huses, hundirected, fun u hu => .inl ?_⟩
    obtain ⟨t, ht, -⟩ := hmapping u hu
    rw [ht, Option.isSome_some]
  obtain ⟨room, hsome, hnone⟩ := Settings.load_inTurn
    (E := GivesUp (FilePath.normalize w.directory path)) hself hreads hes fun room =>
      Scope.failsWithin_givesUp hes hmapping substitutionLimit
  constructor
  · intro u hcycle
    obtain ⟨v, ⟨t, ht, -⟩, -⟩ := Relation.TransGen.head'_iff.1 hcycle
    have hhas : Entries.has es (.str u) = true := by
      rw [Entries.has_eq_isSome, ht, Option.isSome_some]
    obtain ⟨e, w', ⟨location, rfl⟩, hrun⟩ :=
      hnone (inTurn_not_grounded hes (.start hes) hhas (not_grounded_of_cycle hcycle))
    exact ⟨location, w', hrun⟩
  · intro hpaths
    have hdepth := hes.nesting_le room
    obtain ⟨rs, hrs⟩ := exists_entries_of_shallow room huses hmapping hpaths hdepth
    rw [← inTurn_eq_entries hes (.start hes) (.refl huses) (fun u _ => hpaths u) hdepth] at hrs
    obtain ⟨ledger, w', hrun⟩ := hsome rs hrs
    exact ⟨_, ledger, w', hrun⟩

/-- A document in which two sections use each other. -/
def roundEntries : Entries :=
  [(.str "a", .map [(.str "x", .map [(.str "_use", .str "b")])]),
    (.str "b", .map [(.str "_use", .str "a")])]

/-- A document in which a section uses one that uses another. -/
def chainEntries : Entries :=
  [(.str "a", .map [(.str "_use", .str "b")]),
    (.str "b", .map [(.str "x", .map [(.str "_use", .str "c")])]),
    (.str "c", .map [(.str "v", .int 1)])]

/-- A world with both documents. -/
def roundAndChain : World :=
  .holding [(["round.yml"], .file "a: \x7bx: \x7b_use: b\x7d\x7d\nb: \x7b_use: a\x7d\n".toUTF8 ⟨0⟩),
    (["chain.yml"],
      .file "a: \x7b_use: b\x7d\nb: \x7bx: \x7b_use: c\x7d\x7d\nc: \x7bv: 1\x7d\n".toUTF8 ⟨0⟩)]

theorem roundAndChain_loads :
    (∃ location w',
      outcome (Settings.default.load ⟨"round.yml"⟩ LoadOptions.default) roundAndChain =
      (.error (.unresolved ⟨"/round.yml"⟩ location .tooManySubstitutions), w')) ∧
    ∃ tree ledger w', outcome (Settings.default.load ⟨"chain.yml"⟩ LoadOptions.default)
      roundAndChain = (.ok (tree, ledger), w') := by
  have hround : Settings.default.Reads LoadOptions.default ⟨"round.yml"⟩ roundAndChain
      (.map roundEntries) := Settings.reads_of_uncached rfl (by decide +kernel)
  have hchain : Settings.default.Reads LoadOptions.default ⟨"chain.yml"⟩ roundAndChain
      (.map chainEntries) := Settings.reads_of_uncached rfl (by decide +kernel)
  constructor
  · have hcycle : Relation.TransGen (Uses roundEntries) "a" "a" := by
      have hthere : Uses roundEntries "a" "b" := ⟨_, rfl, by decide +kernel⟩
      have hback : Uses roundEntries "b" "a" := ⟨_, rfl, by decide +kernel⟩
      exact .tail (.single hthere) hback
    exact (reuse_bound_is_exact _ _ _ _ rfl hround rfl (by decide +kernel)).1 "a" hcycle
  · refine (reuse_bound_is_exact _ _ _ _ rfl hchain rfl (by decide +kernel)).2
      fun u path hpath => ?_
    let rank : String → Nat := fun u => if u = "a" then 2 else if u = "b" then 1 else 0
    have hshallow := shallow_of_rank rank ?_ u path hpath
    · have hrank : rank u ≤ 2 := by simp only [rank]; split <;> [skip; split] <;> omega
      exact Nat.le_trans hshallow (Nat.le_trans hrank (by decide))
    · simp only [chainEntries, List.forall_mem_cons]
      refine ⟨?_, ?_, ?_, by simp⟩ <;> rintro u ⟨⟩ <;> decide +kernel

end LayeredConfig
