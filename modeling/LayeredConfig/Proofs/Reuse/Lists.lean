import LayeredConfig.Proofs.Deferral
import LayeredConfig.Proofs.Reuse.Finishing

/-!
# Lists of sections

A `_use` that lists several sections merges them first and resolves them together. Here is when this
is the same as to merge what each of them is resolved to: if they have no directives, or if each of
them fits over what those before it are resolved to. Then a mapping that uses them is resolved like
its own entries placed over the merged results.
-/

namespace LayeredConfig

open Directive Tree

namespace Reuse

variable {N : String → Prop} {look : String → Option Tree} {resolve : Tree → Option Tree}

/-! ## Room -/

section Room

variable (hclosed : ∀ name, N name → ∀ t, look name = some t → OnlyUses N t)
  (hlook : ∀ name t, look name = some t → t.WellFormed)
include hclosed hlook

theorem settles_onlyUses (hlacks : ∀ t t', OnlyUses N t → resolve t = some t' → t'.Lacks all)
    (hresolve : ∀ t t', t.WellFormed → resolve t = some t' → t'.WellFormed) :
    Settles (fun t => t.WellFormed ∧ OnlyUses N t) look resolve where
  value hes e he := ⟨((wellFormed_map.1 hes.1).2 e he).2, hes.2.values e he⟩
  item hts t ht := ⟨wellFormed_seq.1 hts.1 t ht, everywhere_seq.1 hts.2 t ht⟩
  carried {es es'} hes h := by
    obtain ⟨honly, hwithout⟩ := carryOut_without hclosed hlacks hes.2 h
    refine ⟨⟨carryOut_wellFormed hlook hresolve hes.1 h, honly⟩,
      Entries.without_iff_has.1 hwithout useKey (by simp [all]), ?_⟩
    cases hvalue : Entries.get? es (.str useKey) with
    | none =>
      rw [carryOut, hvalue] at h
      cases h
      exact Nat.le_refl _
    | some value =>
      obtain ⟨names, merged, below, hnames, hmerged, hbelow, rfl⟩ := (carryOut_eq_some hvalue).1 h
      have hunder : below.Lacks all := hlacks merged below
        (sections_onlyUses hclosed everywhere_empty (hes.2.names hvalue hnames) hmerged) hbelow
      exact nestingEntries_underlay
        (hresolve merged below (sections_wellFormed hlook wellFormed_empty hmerged) hbelow)
        (hunder.mono (by simp [all])) hes.1

/-- A tree needs only as much room as mappings with a `_use` are nested in it. -/
theorem tree_of_nesting_le {room room' levels inner : Nat} {t t' : Tree} (ht : t.WellFormed)
    (honly : OnlyUses N t) (hnesting : nesting t ≤ room)
    (h : Tree.traverse uses (mapping look (base look inner levels) room') t = some t') :
    Tree.traverse uses (mapping look (base look inner levels) room) t = some t' := by
  have hsettles : Settles (fun t => t.WellFormed ∧ OnlyUses N t) look (base look inner levels) :=
    settles_onlyUses hclosed hlook (fun _ _ => base_lacks hclosed) (fun _ _ => base_wellFormed hlook)
  have hmore := traverse_mono (fun _ _ => mapping_mono room) h
  rwa [← hsettles.tree_congr (fun _ _ _ => rfl) ⟨ht, honly⟩ hnesting
    (Nat.le_trans hnesting (Nat.le_add_left room room'))] at hmore

/-- Layers are resolved together as one by one, if they have no directives or fit over one
another. -/
theorem base_layers {room levels : Nat} {layers : List (Tree × Tree)}
    (hlayers : ∀ e ∈ layers, e.1.WellFormed ∧ OnlyUses N e.1)
    (hresolved : ∀ e ∈ layers, base look room (levels + 1) e.1 = some e.2)
    (hfits : (∀ e ∈ layers, e.1.Lacks all) ∨ fitting layers = true) :
    base look room (levels + 1) ((layers.map Prod.fst).foldl Tree.merge .empty) =
      some ((layers.map Prod.snd).foldl Tree.merge .empty) := by
  rcases hfits with hlacks | hfits
  · have hself : ∀ e ∈ layers, e.2 = e.1 := by
      intro e he
      have hresult := hresolved e he
      rw [base_succ, tree_of_lacks ((hlacks e he).mono (by simp [all]))] at hresult
      exact (Option.some_inj.1 hresult).symm
    have hmerged : ((layers.map Prod.fst).foldl Tree.merge .empty).Lacks all := by
      rw [foldl_merge_eq_stacked]
      refine stacked_lacks fun t ht => ?_
      obtain ⟨e, he, rfl⟩ := List.mem_map.1 (List.mem_reverse.1 ht)
      exact hlacks e he
    rw [List.map_congr_left hself, base_succ]
    exact tree_of_lacks (hmerged.mono (by simp [all]))
  · obtain ⟨hwf, honly⟩ : (∀ e ∈ layers, e.1.WellFormed) ∧ ∀ e ∈ layers, OnlyUses N e.1 :=
      ⟨fun e he => (hlayers e he).1, fun e he => (hlayers e he).2⟩
    -- one room for all of them
    have hroom : ∀ e ∈ layers, Tree.traverse uses (mapping look (base look room levels)
        (nestingItems (layers.map Prod.fst))) e.1 = some e.2 := by
      intro e he
      have hresult := hresolved e he
      rw [base_succ] at hresult
      exact tree_of_nesting_le hclosed hlook (hwf e he) (honly e he)
        (nestingItems_le.1 (Nat.le_refl _) e.1 (List.mem_map_of_mem he)) hresult
    have hmerged := tree_layers hlook (fun _ _ => base_wellFormed hlook) hwf hroom hfits
    rw [base_succ]
    refine tree_of_nesting_le hclosed hlook ?_ (OnlyUses.foldl_merge (by simpa using honly))
      (Nat.le_trans (nesting_le_nodeCount _) (Nat.le_add_left _ _)) hmerged
    rw [foldl_merge_eq_stacked]
    refine stacked_wellFormed fun t ht => ?_
    obtain ⟨e, he, rfl⟩ := List.mem_map.1 (List.mem_reverse.1 ht)
    exact hwf e he

/-- A mapping that uses one section alone is resolved to what the section is. -/
theorem base_of_alone {depth room levels : Nat} {name : String} {es : Entries} {t : Tree}
    (hname : N name) (hfound : look name = some (.map es))
    (h : Tree.traverse uses (mapping look (base look room levels) depth)
      (.map [(.str useKey, .str name)]) = some t) :
    base look room levels (.map es) = some t := by
  have huse : Entries.has [(.str useKey, .str name)] (.str useKey) = true := rfl
  rw [traverse_stops huse] at h
  cases depth with
  | zero => cases h
  | succ depth =>
    obtain ⟨es₁, hcarried, hvalues⟩ := Option.bind_eq_some_iff.1 h
    obtain ⟨names, merged, below, hnames, hmerged, hbelow, rfl⟩ := (carryOut_eq_some rfl).1 hcarried
    cases hnames
    have heq : merged = .map es := by
      rw [sections, hfound, Option.bind_some, if_pos (show isMapping (.map es) from rfl), sections,
        empty_merge (hlook name _ hfound)] at hmerged
      exact (Option.some_inj.1 hmerged).symm
    subst heq
    obtain ⟨bs, rfl⟩ : ∃ bs, below = .map bs := by
      cases levels with
      | zero => cases hbelow
      | succ levels =>
        rw [base_succ] at hbelow
        obtain ⟨-, bs, -, -, rfl⟩ := values_of_tree hbelow
        exact ⟨bs, rfl⟩
    have hlacks := base_lacks hclosed (hclosed name hname _ hfound) hbelow
    have hself : Tree.traverse uses (mapping look (base look room levels) depth) (.map bs) =
        some (.map bs) := tree_of_lacks (hlacks.mono (by simp [all]))
    have hnone : Entries.has bs (.str useKey) = false :=
      Entries.without_iff_has.1 (Entries.lacks_map.1 hlacks).1 useKey (by simp [all])
    rw [traverse_passes hnone] at hself
    have ht : some (Tree.map bs) = some t := hself.symm.trans hvalues
    rwa [← ht]

end Room

theorem sections_eq_foldl {found : List Tree} {merged : Tree} {names : List String}
    (h : List.Forall₂ (fun name t => look name = some t ∧ t.isMapping = true) names found) :
    sections look merged names = some (found.foldl Tree.merge merged) := by
  induction h generalizing merged with
  | nil => rfl
  | cons hfirst _ ih =>
    rw [sections, hfirst.1, Option.bind_some, if_pos hfirst.2, ih, List.foldl_cons]

end Reuse

/-! ## Lists of names -/

/-- A name is that of a mapping, given with what a node that uses it alone is resolved to. -/
structure Scope.UsedAlone (s : Scope InWorld) (levels : Nat) (location : String)
    (sources : List Tree) (w : World) (p : Progress) (name : String) (layer : Tree × Tree) :
    Prop where
  found : sectionNamed? sources name = some layer.1
  mapping : ∃ es, layer.1 = .map es
  resolved : ∃ room p' w', outcome ((resolveTree (s.resolveMapping (s.resolveReused levels) room)
    location none (.map [(.str useKey, .str name)])).run p) w = (.ok (layer.2, p'), w')

theorem onlyUses_alone {N : String → Prop} {name : String} (h : N name) :
    OnlyUses N (.map [(.str useKey, .str name)]) := by
  refine everywhere_map.2 fun e he => ?_
  obtain rfl := List.mem_singleton.1 he
  refine ⟨⟨by simp [useKey, includeKey, flattenKey, separatorKey], fun _ names hnames => ?_⟩,
    trivial⟩
  cases hnames
  exact List.forall_mem_singleton.2 h

open Scope in
theorem Scope.UsedAlone.base_eq {s : Scope InWorld} {N : String → Prop} {levels : Nat}
    {location : String} {sources : List Tree} {position : Position} {w : World} {p : Progress}
    {name : String} {layer : Tree × Tree} (h : s.UsedAlone levels location sources w p name layer)
    (hp : p.sources = some sources) (hsections : SectionsBeside N sources position) (hN : N name) :
    Reuse.base (sectionNamed? sources) s.room levels layer.1 = some layer.2 := by
  obtain ⟨es, hes⟩ := h.mapping
  obtain ⟨room, hrun⟩ := h.resolved
  have hvalue := ((computes_of_sections hsections.closed (onlyUses_alone hN) location
    Steady.none).returns_iff ⟨sources, hp, fun _ _ => rfl⟩).1 hrun
  rw [hes]
  exact Reuse.base_of_alone hsections.closed hsections.found_wellFormed hN (hes ▸ h.found) hvalue

open Scope in
/-- What carrying out a `_use` makes of a mapping is its own entries, placed over the results. -/
theorem SectionsBeside.carryOut_eq {s : Scope InWorld} {levels : Nat} {location : String}
    {position : Position} {N : String → Prop} {p : Progress} {w : World} {sources : List Tree}
    {es : Entries} {value : Tree} {names : List String} {layers : List (Tree × Tree)}
    (h : SectionsBeside N sources position) (hp : p.sources = some sources)
    (hvalue : Entries.get? es (.str useKey) = some value)
    (hnames : Directive.names useKey value = .ok names) (hnamed : ∀ name ∈ names, N name)
    (hlayers : List.Forall₂ (s.UsedAlone (levels + 1) location sources w p) names layers)
    (hfits : (∀ e ∈ layers, e.1.Lacks all) ∨ Reuse.fitting layers = true) :
    Reuse.carryOut (sectionNamed? sources) (Reuse.base (sectionNamed? sources) s.room (levels + 1))
        es =
      some (underlay ((layers.map Prod.snd).foldl Tree.merge .empty)
        (Entries.erase es (.str useKey))) := by
  have hlayer : ∀ layer ∈ layers, (layer.1.WellFormed ∧ OnlyUses N layer.1) ∧
      Reuse.base (sectionNamed? sources) s.room (levels + 1) layer.1 = some layer.2 := by
    intro layer hmem
    obtain ⟨name, hname, halone⟩ := exists_of_mem_forall₂ hlayers hmem
    have hN := hnamed name hname
    exact ⟨⟨h.found_wellFormed name _ halone.found, h.closed name hN _ halone.found⟩,
      halone.base_eq hp h hN⟩
  have hmerged : Reuse.sections (sectionNamed? sources) .empty names =
      some ((layers.map Prod.fst).foldl Tree.merge .empty) := by
    refine Reuse.sections_eq_foldl (List.forall₂_map_right_iff.2 (hlayers.imp ?_))
    intro name layer halone
    obtain ⟨es, hes⟩ := halone.mapping
    exact ⟨halone.found, by rw [hes]; rfl⟩
  have hbase := Reuse.base_layers h.closed h.found_wellFormed (fun e he => (hlayer e he).1)
    (fun e he => (hlayer e he).2) hfits
  exact (Reuse.carryOut_eq_some hvalue).2 ⟨names, _, _, hnames, hmerged, hbase, rfl⟩

open Scope in
/-- A mapping that uses a list of sections is resolved like its own entries placed over what the
sections, each used alone, are resolved to, merged in the order listed. This is so if the sections
lie beside the mapping and none has a directive, or if `_use` is the only directive and each section
fits over what those before it are resolved to. -/
theorem use_list_merges_results (s : Scope InWorld) (levels : Nat) (location : String)
    (position : Position) {N : String → Prop} {p : Progress} {w : World} {sources : List Tree}
    {es : Entries} {value : Tree} {names : List String} {layers : List (Tree × Tree)}
    (hp : p.sources = some sources) (hsections : SectionsBeside N sources position)
    (honly : OnlyUses N (.map es))
    (hvalue : Entries.get? es (.str useKey) = some value)
    (hnames : Directive.names useKey value = .ok names)
    (hlayers : List.Forall₂ (s.UsedAlone (levels + 1) location sources w p) names layers)
    (hfits : (∀ e ∈ layers, e.1.Lacks all) ∨ Reuse.fitting layers = true) :
    let resolved room t result := ∃ p' w', outcome ((resolveTree
      (s.resolveMapping (s.resolveReused (levels + 1)) room) location position t).run p) w =
        (.ok (result, p'), w')
    let placed := Tree.map (underlay ((layers.map Prod.snd).foldl Tree.merge .empty)
      (Entries.erase es (.str useKey)))
    (∀ room result, resolved (room + 1) (.map es) result ↔ resolved room placed result) ∧
    ((Tree.map (Entries.erase es (.str useKey))).Lacks all →
      ∀ room, resolved (room + 1) (.map es) placed) := by
  intro resolved placed
  have hcarried := hsections.carryOut_eq hp hvalue hnames (honly.names hvalue hnames) hlayers hfits
  have hiff : ∀ room t result, OnlyUses N t → (resolved room t result ↔
      Tree.traverse Reuse.uses (Reuse.mapping (sectionNamed? sources)
        (Reuse.base (sectionNamed? sources) s.room (levels + 1)) room) t = some result) :=
    fun room t result ht => (computes_of_sections hsections.closed ht location
      hsections.beside.steady).returns_iff ⟨sources, hp, fun _ _ => rfl⟩
  obtain ⟨hplaced, hwithout⟩ := Reuse.carryOut_without hsections.closed
    (fun _ _ => Reuse.base_lacks hsections.closed) honly hcarried
  have hnode : ∀ room result, resolved (room + 1) (.map es) result ↔
      resolved room placed result := by
    intro room result
    have huse : Entries.has es (.str useKey) = true := by
      rw [Entries.has_eq_isSome, hvalue]
      rfl
    rw [hiff _ _ _ honly, hiff _ _ _ hplaced, traverse_stops huse, Reuse.mapping_of_carryOut
      hcarried (Entries.without_iff_has.1 hwithout useKey (by simp [all]))]
  refine ⟨hnode, fun hown room => (hnode room _).2 ((hiff _ _ _ hplaced).2 ?_)⟩
  have hresults : ((layers.map Prod.snd).foldl Tree.merge .empty).Lacks all := by
    rw [foldl_merge_eq_stacked]
    refine stacked_lacks fun t ht => ?_
    obtain ⟨layer, hmem, rfl⟩ := List.mem_map.1 (List.mem_reverse.1 ht)
    obtain ⟨name, hname, halone⟩ := exists_of_mem_forall₂ hlayers hmem
    have hN := honly.names hvalue hnames name hname
    exact Reuse.base_lacks hsections.closed (hsections.closed name hN _ halone.found)
      (halone.base_eq hp hsections hN)
  have hfree : placed.Lacks all := Everywhere.underlay (layered_lacks all) hresults hown
  exact Reuse.tree_of_lacks (hfree.mono (by simp [all]))

/-- A mapping that uses two sections, both of which use a third. -/
def listing : Entries :=
  [(.str "_use", .seq [.str "lib.x", .str "lib.y"]), (.str "own", .int 4)]

/-- The document with the sections. -/
def listingSource : Tree :=
  .map [(.str "lib", .map [
      (.str "x", .map [(.str "v", .map [(.str "a", .int 1)]),
        (.str "w", .map [(.str "_use", .str "lib.z")])]),
      (.str "y", .map [(.str "v", .map [(.str "b", .int 2)]),
        (.str "u", .map [(.str "_use", .str "lib.z")])]),
      (.str "z", .map [(.str "k", .int 3)])]),
    (.str "n", .map listing)]

/-- The two sections, with what they are resolved to. -/
def listingLayers : List (Tree × Tree) :=
  [(.map [(.str "v", .map [(.str "a", .int 1)]), (.str "w", .map [(.str "_use", .str "lib.z")])],
      .map [(.str "v", .map [(.str "a", .int 1)]), (.str "w", .map [(.str "k", .int 3)])]),
    (.map [(.str "v", .map [(.str "b", .int 2)]), (.str "u", .map [(.str "_use", .str "lib.z")])],
      .map [(.str "v", .map [(.str "b", .int 2)]), (.str "u", .map [(.str "k", .int 3)])])]

theorem listing_is_merge_of_results :
    ∃ p' w', outcome ((Scope.resolveTree
        (layersScope.resolveMapping (layersScope.resolveReused 2) 3) "n" (some [.key "n"])
        (.map listing)).run ⟨some [listingSource], Ledger.empty⟩) deferring =
      (.ok (.map [(.str "v", .map [(.str "a", .int 1), (.str "b", .int 2)]),
        (.str "w", .map [(.str "k", .int 3)]), (.str "u", .map [(.str "k", .int 3)]),
        (.str "own", .int 4)], p'), w') := by
  have hsections : SectionsBeside (· ∈ ["lib.x", "lib.y", "lib.z"]) [listingSource]
      (some [.key "n"]) := by
    refine ⟨by decide +kernel, fun name hname t ht => ?_, ?_⟩
    · have hclosed : ∀ name ∈ ["lib.x", "lib.y", "lib.z"],
          (Scope.sectionNamed? [listingSource] name).all fun t =>
            OnlyUses (· ∈ ["lib.x", "lib.y", "lib.z"]) t := by decide +kernel
      have honly := hclosed name hname
      rwa [ht, Option.all_some, decide_eq_true_iff] at honly
    · have hpaths : ∀ name ∈ ["lib.x", "lib.y", "lib.z"],
          SectionPath.parse name = .key "lib" :: (SectionPath.parse name).tail := by decide +kernel
      rintro _ ⟨⟩ name hname
      exact ⟨[], .key "n", .key "lib", [], _, rfl, hpaths name hname, by simp⟩
  have halone : List.Forall₂ (layersScope.UsedAlone 2 "n" [listingSource] deferring
      ⟨some [listingSource], Ledger.empty⟩) ["lib.x", "lib.y"] listingLayers := by
    have hresolved : ∀ e ∈ ["lib.x", "lib.y"].zip listingLayers,
        Scope.sectionNamed? [listingSource] e.1 = some e.2.1 ∧
        succeeds ((Scope.resolveTree (layersScope.resolveMapping (layersScope.resolveReused 2) 1)
          "n" none (.map [(.str useKey, .str e.1)])).run ⟨some [listingSource], Ledger.empty⟩)
          deferring (fun r _ => r.1 = e.2.2) := by decide +kernel
    refine List.forall₂_iff_zip.2 ⟨rfl, fun {name layer} hmem => ?_⟩
    obtain ⟨hfound, hsucceeds⟩ := hresolved _ hmem
    obtain ⟨⟨t, p'⟩, w', hok, ht⟩ := succeeds_iff.1 hsucceeds
    obtain rfl := of_decide_eq_true ht
    refine ⟨hfound, ?_, 1, p', w', hok⟩
    have hmaps : ∀ layer ∈ listingLayers, ∃ es, layer.1 = .map es := by simp [listingLayers]
    exact hmaps layer (List.of_mem_zip hmem).2
  exact (use_list_merges_results layersScope 1 "n" (some [.key "n"]) rfl hsections
    (by decide +kernel) rfl rfl halone (.inr (by decide +kernel))).2 (by decide +kernel) 2

/-- What a later section uses itself ends up beneath the earlier section: `y` does not fit over `x`,
and alone it is resolved to `v: 2`. -/
example : succeeds ((Scope.resolveTree
    (layersScope.resolveMapping (layersScope.resolveReused 2) 1) "n" none
    (.map [(.str "_use", .seq [.str "x", .str "y"])])).run
      ⟨some [.map [(.str "x", .map [(.str "v", .int 1)]),
        (.str "y", .map [(.str "_use", .str "z")]), (.str "z", .map [(.str "v", .int 2)])]],
        Ledger.empty⟩) deferring
    (fun r _ => r.1 = .map [(.str "v", .int 1)]) := by decide +kernel

end LayeredConfig
