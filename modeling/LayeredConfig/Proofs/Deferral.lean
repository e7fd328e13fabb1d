import LayeredConfig.Proofs.Precedence
import LayeredConfig.Proofs.Reuse.Computing

/-!
# Deferred reuse

An included file keeps its `_use` directives for the document that includes it, which carries them
out only when the file has been merged with what lies over it. Here is when this makes no
difference: the sections lie beside the mapping that includes, and the included files and the
mapping's own entries, each resolved for itself, fit over one another. Then the mapping is resolved
to these results, merged.
-/

namespace LayeredConfig

open Directive Tree

namespace Scope

variable {s : Scope InWorld} {N : String → Prop} {find : String → Option Tree}
  {resolve : Tree → String → Resolving InWorld Tree} {value : Tree → Option Tree}
  {f : Flattening} {position : Position}

/-! ## Mappings that include -/

section Including

variable {location : String} {es : Entries} {names : Tree} {trees : List Tree} {p : Progress}
  {w : World}

/-- What an `_include` that is carried out makes of a mapping, with sections looked up beside it. -/
theorem includeStep_run_of_includes (hincludes : s.includes = true)
    (hload : ∀ file chain location, Fulfils (fun _ => True) (fun _ => True) True
      (s.load file chain location) fun _ => True)
    (hdepth : f.depth = 0) (hposition : Beside N position) (hp : Finds N find p.sources)
    (hnames : Entries.get? es (.str includeKey) = some names)
    (h : s.Includes location es p w trees) :
    ∃ p' w', Finds N find p'.sources ∧
      outcome ((s.includeStep f location position es).run p) w =
        (.ok (underlay (trees.foldl Tree.merge .empty) (Entries.erase es (.str includeKey)), p'),
          w') := by
  unfold Includes at h
  rw [if_pos hincludes, hnames] at h
  obtain ⟨raws, p₁, w₁, hraws, hrun⟩ := h
  have hp₁ : Finds N find p₁.sources := by
    have hsteps : Steps (fun _ => True) (fun _ => True) (Finds N find) True
        (s.includedTrees location raws) fun trees => ∀ t ∈ trees, True :=
      steps_includedTrees Settings.anyWorld hload location raws
    exact (hsteps.post trivial hrun hp).2
  have hbase : outcome ((s.included names location f).run p) w =
      (.ok (trees.foldl Tree.merge .empty, p₁), w₁) := by
    unfold included
    rw [hraws]
    change outcome ((s.includeAll f location .empty raws).run p) w = _
    rw [includeAll_eq, map_eq_pure_bind, StateT.run_bind, outcome_bind, hrun]
    simp only [hdepth, flatten_zero]
    rfl
  obtain ⟨sources, hsources, hrebind⟩ := (hposition.steady.rebind
    (underlay (trees.foldl Tree.merge .empty) (Entries.erase es (.str includeKey))) p₁ w₁ hp₁).1 ()
    rfl
  refine ⟨{ p₁ with sources := sources }, w₁, hsources, ?_⟩
  unfold includeStep
  dsimp only
  rw [if_pos hincludes, hnames]
  dsimp only
  rw [StateT.run_bind, outcome_bind, hbase]
  dsimp only
  rw [StateT.run_bind, outcome_bind, hrebind]
  rfl

/-- Once the files have been merged, resolving a mapping that includes them is computed. -/
theorem resolveMapping_run_of_includes
    (hclosed : ∀ name, N name → ∀ t, find name = some t → OnlyUses N t)
    (hresolve : ∀ t location, OnlyUses N t →
      Computes (Finds N find) (resolve t location) (value t))
    (hlacks : ∀ t t', OnlyUses N t → value t = some t' → t'.Lacks all)
    (hincludes : s.includes = true)
    (hload : ∀ file chain location, Fulfils (fun _ => True) (fun _ => True) True
      (s.load file chain location) fun _ => True)
    (hposition : Beside N position) (hp : Finds N find p.sources)
    (hnames : Entries.get? es (.str includeKey) = some names)
    (hown : OnlyUses N (.map (Entries.erase es (.str includeKey))))
    (h : s.Includes location es p w trees) (htrees : ∀ t ∈ trees, OnlyUses N t) :
    ∃ p' w', Finds N find p'.sources ∧ ∀ room, ∃ x,
      outcome ((s.resolveMapping resolve (room + 1) es location position).run p) w =
        outcome (x.run p') w' ∧
      Computes (Finds N find) x (Reuse.mapping find value (room + 1)
        (underlay (trees.foldl Tree.merge .empty) (Entries.erase es (.str includeKey)))) := by
  obtain ⟨p', w', hp', hrun⟩ :=
    includeStep_run_of_includes (f := Flattening.none) hincludes hload rfl hposition hp hnames h
  have honly : OnlyUses N (.map (underlay (trees.foldl Tree.merge .empty)
      (Entries.erase es (.str includeKey)))) :=
    Everywhere.underlay (layered_onlyUses N) (OnlyUses.foldl_merge htrees) hown
  generalize underlay (trees.foldl Tree.merge .empty) (Entries.erase es (.str includeKey)) = es₁
    at hrun honly
  obtain ⟨passes, hlimit⟩ : ∃ passes, substitutionLimit = passes + 1 + 1 := ⟨18, rfl⟩
  refine ⟨p', w', hp', fun room => ⟨do
    let es ← (do
      let es ← s.useStep resolve Flattening.none location position es₁
      s.substitute resolve Flattening.none location position (passes + 1) es)
    return Tree.map (← resolveEntries (s.resolveMapping resolve room) location position es),
    ?_, ?_⟩⟩
  · have hpending : (s.includes && Entries.has es (.str includeKey) ||
        p.sources.isSome && Entries.has es (.str useKey)) = true := by
      rw [hincludes, Entries.has_eq_isSome es (.str includeKey), hnames, Bool.true_and,
        Option.isSome_some, Bool.true_or]
    rw [resolveMapping]
    dsimp only
    rw [hown.take_eq, hlimit]
    change outcome ((do
      let es ← s.substitute resolve Flattening.none location position (passes + 1 + 1) es
      return Tree.map (← resolveEntries (s.resolveMapping resolve room) location position es)).run
        p) w = _
    rw [StateT.run_bind, outcome_bind, substitute_run_of_includeStep hpending hrun (passes + 1)]
    exact (outcome_bind _ _ _).symm
  · rw [Reuse.mapping]
    have hdone : Computes (Finds N find) (do
          let es ← s.useStep resolve Flattening.none location position es₁
          s.substitute resolve Flattening.none location position (passes + 1) es)
        ((Reuse.carryOut find value es₁).bind some) := by
      refine (computes_useStep hclosed (fun _ h => h) hresolve rfl hposition.steady
        location honly).bind
        fun es₂ hes₂ => ?_
      obtain ⟨honly₂, hwithout⟩ := Reuse.carryOut_without hclosed hlacks honly hes₂
      have huse : Entries.has es₂ (.str useKey) = false :=
        Entries.without_iff_has.1 hwithout useKey (by simp [all])
      have hcarried : Reuse.carryOut find value es₂ = some es₂ := Reuse.carryOut_of_has huse
      rw [← hcarried]
      exact computes_substitute hclosed (fun _ h => h) hresolve rfl hposition.steady hlacks location
        passes honly₂
    refine Computes.bind (by simpa using hdone) fun es₂ hes₂ => ?_
    obtain ⟨honly₂, -⟩ := Reuse.carryOut_without hclosed hlacks honly hes₂
    exact (computes_values (fun es location position hes => computes_resolveMapping hclosed
      (fun _ h => h) hresolve hlacks room hes location) honly₂ location hposition.steady).map _

end Including

end Scope

/-! ## Faithfulness -/

/-- The sections of the names in `N` use only such sections themselves, and lie beside a
position. -/
structure SectionsBeside (N : String → Prop) (sources : List Tree) (position : Position) :
    Prop where
  wellFormed : ∀ t ∈ sources, t.WellFormed
  closed : ∀ name, N name → ∀ t, Scope.sectionNamed? sources name = some t → OnlyUses N t
  beside : Beside N position

/-- The layers of a mapping that includes files, each given with what it is resolved to for itself
where the resolution of the mapping begins. -/
structure Scope.Layers (s : Scope InWorld) (N : String → Prop) (levels depth : Nat)
    (location : String) (es : Entries) (p : Progress) (w : World) (layers : List (Tree × Tree)) :
    Prop where
  /-- They are the files in the order listed, and the mapping's own entries. -/
  trees : ∃ trees, s.Includes location es p w trees ∧
    layers.map Prod.fst = trees ++ [.map (Entries.erase es (.str includeKey))]
  /-- They have no other directives than `_use`s of sections in `N`. -/
  onlyUses : ∀ e ∈ layers, OnlyUses N e.1
  resolved : ∀ e ∈ layers, ∃ p' w', outcome ((resolveTree
    (s.resolveMapping (s.resolveReused levels) depth) location none e.1).run p) w =
      (.ok (e.2, p'), w')
  fitting : Reuse.fitting layers = true

section Faithful

variable {s : Scope InWorld} {N : String → Prop} {sources : List Tree} {position : Position}

theorem SectionsBeside.found_wellFormed (h : SectionsBeside N sources position) (name : String)
    (t : Tree) (hfound : Scope.sectionNamed? sources name = some t) : t.WellFormed := by
  obtain ⟨source, hsource, hlookup⟩ := List.exists_of_findSome?_eq_some hfound
  exact WellFormed.lookup (h.wellFormed source hsource) hlookup

namespace Scope

/-- Resolving a tree that only uses sections is computed, with room for mappings that are nested. -/
theorem computes_of_sections
    (hclosed : ∀ name, N name → ∀ t, sectionNamed? sources name = some t → OnlyUses N t)
    {levels depth : Nat} {t : Tree} (ht : OnlyUses N t) (location : String)
    (hposition : Steady (Finds N (sectionNamed? sources)) position) :
    Computes (Finds N (sectionNamed? sources))
      (resolveTree (s.resolveMapping (s.resolveReused levels) depth) location position t)
      (Tree.traverse Reuse.uses (Reuse.mapping (sectionNamed? sources)
        (Reuse.base (sectionNamed? sources) s.room levels) depth) t) :=
  computes_resolveTree (fun _ location _ hes => computes_resolveMapping hclosed (fun _ h => h)
    (fun _ location ht => computes_resolveReused hclosed (fun _ h => h) levels ht location)
    (fun _ _ => Reuse.base_lacks hclosed) depth hes location) ht location hposition

/-- The layers merged are resolved to what they are resolved to, merged. -/
theorem Layers.mapping_eq {levels depth : Nat} {location : String} {es : Entries} {p : Progress}
    {w : World} {layers : List (Tree × Tree)}
    (h : s.Layers N levels depth location es p w layers) (hes : WellFormed (.map es))
    (hload : ∀ file chain location, Fulfils (fun _ => True) (fun _ => True) True
      (s.load file chain location) fun r => r.1.WellFormed)
    (hsections : SectionsBeside N sources position) (hp : p.sources = some sources)
    {trees : List Tree} (htrees : s.Includes location es p w trees)
    (heq : layers.map Prod.fst = trees ++ [.map (Entries.erase es (.str includeKey))]) :
    Reuse.mapping (sectionNamed? sources) (Reuse.base (sectionNamed? sources) s.room levels)
        (depth * layers.length + 1)
        (underlay (trees.foldl Tree.merge .empty) (Entries.erase es (.str includeKey))) =
      some ((layers.map Prod.snd).foldl Tree.merge .empty) := by
  have hown := hes.erase (.str includeKey)
  have hwf : ∀ e ∈ layers, e.1.WellFormed := by
    intro e he
    have hmem : e.1 ∈ layers.map Prod.fst := List.mem_map_of_mem he
    rw [heq, List.mem_append, List.mem_singleton] at hmem
    rcases hmem with htree | hself
    · exact htrees.wellFormed hload _ htree
    · rwa [hself]
  have hresolved : ∀ e ∈ layers, Tree.traverse Reuse.uses (Reuse.mapping (sectionNamed? sources)
      (Reuse.base (sectionNamed? sources) s.room levels) depth) e.1 = some e.2 := by
    intro e he
    obtain ⟨p', w', hrun⟩ := h.resolved e he
    exact (computes_of_sections hsections.closed (h.onlyUses e he) location Steady.none).value_eq
      ⟨sources, hp, fun _ _ => rfl⟩ hrun
  have hmerged := Reuse.tree_layers hsections.found_wellFormed
    (fun t t' => Reuse.base_wellFormed hsections.found_wellFormed) hwf hresolved h.fitting
  rw [heq, List.foldl_append, List.foldl_cons, List.foldl_nil, ← map_underlay hown] at hmerged
  exact Reuse.mapping_of_tree hmerged

end Scope

end Faithful

/-- A mapping that includes files is resolved to its layers, each of them resolved for itself,
merged in the order listed: the `_use` directives of the files have the effect that they have where
they are written, although they are carried out when the files have been merged. This is so if the
layers have no other directives and fit over one another, and if the sections lie beside the
mapping. -/
theorem deferred_uses_are_faithful (s : Settings) (o : LoadOptions) (owner : FilePath)
    (budget room levels : Nat) (location : String) (position : Position) (es : Entries)
    {N : String → Prop} {p : Progress} {w : World} {sources : List Tree} {depth : Nat}
    {layers : List (Tree × Tree)} (hincludes : o.includes = true) (hes : WellFormed (.map es))
    (hdirected : Entries.has es (.str includeKey) = true) (hp : p.sources = some sources)
    (hsections : SectionsBeside N sources position)
    (hlayers : (s.scopeFor o owner budget room).Layers N levels depth location es p w layers) :
    let scope := s.scopeFor o owner budget room
    let run room := outcome ((Scope.resolveTree
      (scope.resolveMapping (scope.resolveReused levels) room) location position (.map es)).run p) w
    (∀ room, depth * layers.length < room →
      ∃ p' w', run room = (.ok ((layers.map Prod.snd).foldl Tree.merge .empty, p'), w')) ∧
    ∀ room t p' w', run room = (.ok (t, p'), w') →
      t = (layers.map Prod.snd).foldl Tree.merge .empty := by
  intro scope run
  obtain ⟨trees, hincluded, htrees⟩ := hlayers.trees
  have hvalue := hlayers.mapping_eq hes (s.scopeFor_loads owner budget room) hsections hp hincluded
    htrees
  have hlayer : ∀ t ∈ trees ++ [Tree.map (Entries.erase es (.str includeKey))], OnlyUses N t := by
    rw [← htrees]
    intro t ht
    obtain ⟨e, he, rfl⟩ := List.mem_map.1 ht
    exact hlayers.onlyUses e he
  obtain ⟨hfiles, hown⟩ := List.forall_mem_append.1 hlayer
  obtain ⟨names, hnames⟩ : ∃ names, Entries.get? es (.str includeKey) = some names := by
    rwa [Entries.has_eq_isSome, Option.isSome_iff_exists] at hdirected
  obtain ⟨p₁, w₁, hp₁, hrest⟩ := Scope.resolveMapping_run_of_includes hsections.closed
    (fun t location ht => scope.computes_resolveReused hsections.closed (fun _ h => h) levels ht
      location)
    (fun t t' => Reuse.base_lacks hsections.closed) hincludes
    (fun file chain location => ((s.scopeFor_loads owner budget room file chain location).mono id
      fun _ _ => trivial)) hsections.beside ⟨sources, hp, fun _ _ => rfl⟩ hnames
    (hown _ List.mem_cons_self) hincluded hfiles
  have hrun : ∀ room, run room =
      outcome ((scope.resolveMapping (scope.resolveReused levels) room es location position).run p)
        w := by
    intro room
    have hisDirected : Scope.isDirected es = true := by simp [Scope.isDirected, hdirected]
    change outcome ((Scope.resolveTree _ _ _ _).run p) w = _
    rw [Scope.resolveTree, if_pos hisDirected]
  refine ⟨fun room hroom => ?_, fun room t p' w' hok => ?_⟩
  · obtain ⟨more, rfl⟩ : ∃ more, room = depth * layers.length + more + 1 :=
      ⟨room - (depth * layers.length + 1), by omega⟩
    obtain ⟨x, heq, hx⟩ := hrest (depth * layers.length + more)
    have hmore := Reuse.mapping_mono more hvalue
    rw [Nat.add_right_comm] at hmore
    obtain ⟨sources', -, hok⟩ := (hx p₁ w₁ hp₁).1 _ hmore
    exact ⟨{ p₁ with sources := sources' }, w₁, by rw [hrun, heq, hok]⟩
  · rw [hrun] at hok
    cases room with
    | zero => cases hok
    | succ room =>
      obtain ⟨x, heq, hx⟩ := hrest room
      rw [heq] at hok
      -- both results are what more room would give
      have hfound := Reuse.mapping_mono (depth * layers.length + 1) (hx.value_eq hp₁ hok)
      have hexpected := Reuse.mapping_mono (room + 1) hvalue
      rw [Nat.add_comm] at hexpected
      exact Option.some_inj.1 (hfound.symm.trans hexpected)

/-- A world with a file that uses a section of the document that includes it. -/
def deferring : World :=
  .holding [(["f.yml"], .file "a: \x7b_use: lib.x\x7d\nb: 2\n".toUTF8 ⟨0⟩)]

/-- A mapping that includes the file. -/
def includingDeferring : Entries := [(.str "_include", .str "f.yml"), (.str "c", .int 3)]

/-- The document with the section. -/
def sectionSource : Tree :=
  .map [(.str "lib", .map [(.str "x", .map [(.str "k", .int 1)])]),
    (.str "n", .map includingDeferring)]

/-- The file and the mapping's own entries, with what they are resolved to. -/
def deferringLayers : List (Tree × Tree) :=
  [(.map [(.str "a", .map [(.str "_use", .str "lib.x")]), (.str "b", .int 2)],
      .map [(.str "a", .map [(.str "k", .int 1)]), (.str "b", .int 2)]),
    (.map [(.str "c", .int 3)], .map [(.str "c", .int 3)])]

theorem includingDeferring_faithful :
    ∃ p' w', outcome ((Scope.resolveTree
        (layersScope.resolveMapping (layersScope.resolveReused 1) 3) "n" (some [.key "n"])
        (.map includingDeferring)).run ⟨some [sectionSource], Ledger.empty⟩) deferring =
      (.ok (.map [(.str "a", .map [(.str "k", .int 1)]), (.str "b", .int 2), (.str "c", .int 3)],
        p'), w') := by
  have hsections : SectionsBeside (· = "lib.x") [sectionSource] (some [.key "n"]) := by
    refine ⟨by decide +kernel, ?_, ?_⟩
    · rintro _ rfl t ht
      have hfound : Scope.sectionNamed? [sectionSource] "lib.x" =
          some (.map [(.str "k", .int 1)]) := by decide +kernel
      obtain rfl : Tree.map [(.str "k", .int 1)] = t := Option.some_inj.1 (hfound.symm.trans ht)
      decide +kernel
    · rintro _ ⟨⟩ _ rfl
      exact ⟨[], .key "n", .key "lib", [], [.key "x"], rfl, by decide +kernel, by simp⟩
  have hlayers : layersScope.Layers (· = "lib.x") 1 1 "n" includingDeferring
      ⟨some [sectionSource], Ledger.empty⟩ deferring deferringLayers := by
    refine ⟨?_, ?_, ?_, by decide +kernel⟩
    · have hfile : succeeds ((layersScope.includedTrees "n" ["f.yml"]).run
          ⟨some [sectionSource], Ledger.empty⟩) deferring (fun r _ =>
            r.1 = [.map [(.str "a", .map [(.str "_use", .str "lib.x")]), (.str "b", .int 2)]]) := by
        decide +kernel
      obtain ⟨⟨trees, p'⟩, w', hrun, htrees⟩ := succeeds_iff.1 hfile
      obtain rfl := of_decide_eq_true htrees
      exact ⟨_, ⟨["f.yml"], p', w', rfl, hrun⟩, by decide +kernel⟩
    · decide +kernel
    · intro e he
      have hrun : ∀ e ∈ deferringLayers, succeeds ((Scope.resolveTree (layersScope.resolveMapping
          (layersScope.resolveReused 1) 1) "n" none e.1).run ⟨some [sectionSource], Ledger.empty⟩)
          deferring (fun r _ => r.1 = e.2) := by decide +kernel
      obtain ⟨⟨t, p'⟩, w', hok, ht⟩ := succeeds_iff.1 (hrun e he)
      obtain rfl := of_decide_eq_true ht
      exact ⟨p', w', hok⟩
  obtain ⟨hruns, -⟩ := deferred_uses_are_faithful Settings.default LoadOptions.default ⟨"/root.yml"⟩
    1 0 1 "n" (some [.key "n"]) includingDeferring rfl (by decide +kernel) (by decide +kernel) rfl
    hsections hlayers
  exact hruns 3 (by decide)

end LayeredConfig
