import LayeredConfig.Proofs.Precedence
import LayeredConfig.Proofs.Tree.Algebra

/-!
# What is pulled in arrives

A mapping pulls in files and sections, each of which is checked to be a mapping. The check looks
through tags, but merging does not: a tree under a tag takes the place of all that was merged before
it, and is itself no mapping that could be placed beneath another. So of what a directive pulls in,
the keys of those trees arrive that are mappings without a tag and that no tree under a tag follows.
Without tags these are all of them. They arrive whether the directive was the mapping's own or was
pulled in itself, and stay whatever is pulled in later.
-/

namespace LayeredConfig

open Directive Tree

/-! ## Keys -/

namespace Tree

/-- The tree is a mapping that has the key; tags are not looked through. -/
def HasKey (t key : Tree) : Prop := ∃ v, t.at? (keyPath [key]) = some v

theorem hasKey_map {es : Entries} {key : Tree} :
    (Tree.map es).HasKey key ↔ ∃ v, Entries.get? es key = some v := by
  have hat : (Tree.map es).at? (keyPath [key]) = Entries.get? es key := by
    cases h : Entries.get? es key <;> simp [h]
  rw [HasKey, hat]

variable {base overlay key : Tree}

theorem avoids_single {names : List String} (h : ∀ name ∈ names, key ≠ .str name) :
    Avoids names (keyPath [key]) := by
  refine avoids_cons.2 ⟨fun name hname key' hkey => ?_, avoids_nil names⟩
  cases hkey
  exact h name hname

theorem HasKey.of_keeps {names : List String} {t t' : Tree} (h : t.HasKey key)
    (hkeeps : Keeps names t t') (hkey : ∀ name ∈ names, key ≠ .str name) : t'.HasKey key := by
  obtain ⟨v, hv⟩ := h
  obtain ⟨v', hv', -⟩ := hkeeps.at? (avoids_single hkey) hv
  exact ⟨v', hv'⟩

theorem HasKey.merge_overlay (hbase : base.WellFormed) (hoverlay : overlay.WellFormed)
    (h : overlay.HasKey key) : (base.merge overlay).HasKey key := by
  have hkeeps : Keeps [] overlay (base.merge overlay) := Keeps.merge hbase hoverlay
  exact h.of_keeps hkeeps (by simp)

theorem HasKey.merge_base (hbase : base.WellFormed) {above : Entries}
    (habove : WellFormed (.map above)) (h : base.HasKey key) :
    (base.merge (.map above)).HasKey key := by
  obtain ⟨v, hv⟩ := h
  obtain ⟨below, u, rfl, hget, -⟩ := map_of_at? hv
  rw [merge_map_map, hasKey_map, get?_mergeEntries_eq hbase habove, hget]
  cases Entries.get? above key <;> exact ⟨_, rfl⟩

theorem HasKey.underlay {own : Entries} (hbase : base.WellFormed) (hown : WellFormed (.map own))
    (h : base.HasKey key) : (Tree.map (Tree.underlay base own)).HasKey key := by
  rw [map_underlay hown]
  exact h.merge_base hbase hown

/-- What is merged over a tree leaves its keys there, as long as there is no tag. -/
theorem HasKey.foldl {layers : List Tree} (h : base.HasKey key) (hbase : base.WellFormed)
    (hlayers : ∀ u ∈ layers, u.WellFormed) (hmaps : ∀ u ∈ layers, ∃ es, u = .map es) :
    (layers.foldl Tree.merge base).HasKey key := by
  induction layers generalizing base with
  | nil => exact h
  | cons u rest ih =>
    obtain ⟨hu, hrest⟩ := List.forall_mem_cons.1 hlayers
    obtain ⟨⟨es, rfl⟩, hmore⟩ := List.forall_mem_cons.1 hmaps
    exact ih (h.merge_base hbase hu) (hbase.merge hu) hrest hmore

/-- Of merged layers, each one that no tag follows has its keys there. -/
theorem hasKey_merged {before after : List Tree} {u : Tree}
    (hwf : ∀ v ∈ before ++ u :: after, v.WellFormed) (hmaps : ∀ v ∈ after, ∃ es, v = .map es)
    (h : u.HasKey key) : ((before ++ u :: after).foldl Tree.merge .empty).HasKey key := by
  obtain ⟨hbefore, hwf⟩ := List.forall_mem_append.1 hwf
  obtain ⟨hu, hafter⟩ := List.forall_mem_cons.1 hwf
  have hmerged : (before.foldl Tree.merge .empty).WellFormed := by
    rw [foldl_merge_eq_stacked]
    exact stacked_wellFormed (by simpa using hbefore)
  rw [List.foldl_append, List.foldl_cons]
  exact (h.merge_overlay hmerged hu).foldl (hmerged.merge hu) hafter hmaps

/-- A tree under a tag takes the place of what was merged before, and has no keys itself. -/
example : Tree.underlay ([.map [(.str "x", .int 1)], .tagged "!t" (.map [(.str "y", .int 2)])].foldl
    Tree.merge .empty) [] = [] := by rfl

end Tree

namespace Scope

variable {s : Scope InWorld} {resolve : Tree → String → Resolving InWorld Tree} {f : Flattening}
  {location : String} {position : Position} {p p' : Progress} {w w' : World}

/-! ## What is accepted -/

/-- Every file that is included is a mapping, possibly under a tag. -/
theorem includedTrees_checked {raws : List String} {trees : List Tree}
    (h : outcome ((s.includedTrees location raws).run p) w = (.ok (trees, p'), w')) :
    ∀ t ∈ trees, t.isMapping := by
  induction raws generalizing p w trees with
  | nil =>
    cases h
    simp
  | cons raw rest ih =>
    unfold includedTrees at h
    obtain ⟨entry, p₁, w₁, -, h⟩ := run_bind_ok h
    obtain ⟨found, p₂, w₂, -, h⟩ := run_bind_ok h
    cases found with
    | none => exact ih h
    | some file =>
      obtain ⟨tree, p₃, w₃, hload, h⟩ := run_bind_ok h
      obtain ⟨trees, p₄, w₄, hrest, h⟩ := run_bind_ok h
      cases h
      refine List.forall_mem_cons.2 ⟨?_, ih hrest⟩
      unfold loadIncluded at hload
      split at hload
      · cases hload
      · obtain ⟨⟨tree', ledger⟩, p₅, w₅, -, hload⟩ := run_bind_ok hload
        obtain ⟨_, p₆, w₆, -, hload⟩ := run_bind_ok hload
        dsimp only at hload
        split at hload
        · cases hload
        next hmapping =>
          cases hload
          simpa using hmapping

theorem Includes.checked {es : Entries} {trees : List Tree}
    (h : s.Includes location es p w trees) : ∀ t ∈ trees, t.isMapping := by
  unfold Includes at h
  split at h
  · simp [h]
  · obtain ⟨raws, p', w', -, hrun⟩ := h
    exact includedTrees_checked hrun

/-! ## What is pulled in -/

/-- A mapping pulls in some trees, in a run of the resolution that carries out its directives: the
files it includes, the sections it uses then, and what it pulls in when these have been laid beneath
it. -/
inductive PullsIn (s : Scope InWorld) (resolve : Tree → String → Resolving InWorld Tree)
    (f : Flattening) (location : String) (position : Position) :
    Entries → Progress → World → List Tree → Prop
  | included {es : Entries} {p : Progress} {w : World} {trees : List Tree}
    (h : s.Includes location es p w trees) : PullsIn s resolve f location position es p w trees
  | used {es es₁ : Entries} {p p₁ : Progress} {w w₁ : World} {sections : List Tree}
    (hinclude : outcome ((s.includeStep f location position es).run p) w = (.ok (es₁, p₁), w₁))
    (h : Uses p₁.sources es₁ sections) : PullsIn s resolve f location position es p w sections
  | later {es es₁ es₂ : Entries} {p p₁ p₂ : Progress} {w w₁ w₂ : World} {trees : List Tree}
    (hinclude : outcome ((s.includeStep f location position es).run p) w = (.ok (es₁, p₁), w₁))
    (huse : outcome ((s.useStep resolve f location position es₁).run p₁) w₁ =
      (.ok (es₂, p₂), w₂))
    (h : PullsIn s resolve f location position es₂ p₂ w₂ trees) :
    PullsIn s resolve f location position es p w trees

theorem Includes.unique {es : Entries} {trees trees' : List Tree}
    (h : s.Includes location es p w trees) (h' : s.Includes location es p w trees') :
    trees = trees' := by
  unfold Includes at h h'
  split at h
  next hnone =>
    rw [hnone] at h'
    rw [h, h']
  next value hvalue =>
    rw [hvalue] at h'
    obtain ⟨raws, p₁, w₁, hraws, hrun⟩ := h
    obtain ⟨raws', p₂, w₂, hraws', hrun'⟩ := h'
    cases hraws.symm.trans hraws'
    cases hrun.symm.trans hrun'
    rfl

theorem Uses.unique {sources : Option (List Tree)} {es : Entries} {sections sections' : List Tree}
    (h : Uses sources es sections) (h' : Uses sources es sections') : sections = sections' := by
  unfold Uses at h h'
  cases sources with
  | none => exact h.trans h'.symm
  | some list =>
    cases hvalue : Entries.get? es (.str useKey) with
    | none =>
      rw [hvalue] at h h'
      exact h.trans h'.symm
    | some value =>
      rw [hvalue] at h h'
      obtain ⟨names, hnames, hsections⟩ := h
      obtain ⟨names', hnames', hsections'⟩ := h'
      cases hnames.symm.trans hnames'
      exact List.right_unique_forall₂' (fun _ _ _ ha hb => Option.some_inj.1 (ha.symm.trans hb))
        hsections hsections'

/-- Keys of the trees arrive in another, those of each mapping that only mappings follow. Directives
do not count. -/
def Arrive (trees : List Tree) (t : Tree) : Prop :=
  ∀ before u after key, trees = before ++ u :: after → (∀ v ∈ after, ∃ es, v = .map es) →
    u.HasKey key → (∀ name ∈ all, key ≠ .str name) → t.HasKey key

theorem Arrive.of_keeps {names : List String} (hnames : ∀ name ∈ names, name ∈ all)
    {trees : List Tree} {t t' : Tree} (h : Arrive trees t) (hkeeps : Keeps names t t') :
    Arrive trees t' :=
  fun before u after key htrees hmaps hu hkey =>
    (h before u after key htrees hmaps hu hkey).of_keeps hkeeps
      fun name hname => hkey name (hnames name hname)

theorem arrive_nil (t : Tree) : Arrive [] t := by
  intro before u after key h
  simp at h

section Arriving

variable {reuse : Bool} {levels : Nat}
  (hload : ∀ file chain location, Fulfils (fun _ => True) (fun _ => True) True
    (s.load file chain location) fun r => r.1.WellFormed)
include hload

/-- What is included arrives. -/
theorem includeStep_arrive (hdepth : f.depth = 0) {es es' : Entries} (hes : WellFormed (.map es))
    (h : outcome ((s.includeStep f location position es).run p) w = (.ok (es', p'), w')) :
    ∃ trees, s.Includes location es p w trees ∧ Arrive trees (.map es') := by
  obtain ⟨trees, hincludes, hlaid⟩ : ∃ trees, s.Includes location es p w trees ∧
      Laid (carriedOut s.includes false) includeKey trees.reverse es es' := includeStep_ok hdepth h
  refine ⟨trees, hincludes, ?_⟩
  rcases hlaid with ⟨hempty, rfl⟩ | ⟨-, rfl⟩
  · rw [List.reverse_eq_nil_iff.1 hempty]
    exact arrive_nil _
  · have hwf := hincludes.wellFormed hload
    have hstacked : (stacked trees.reverse).WellFormed := stacked_wellFormed (by simpa using hwf)
    intro before u after key htrees hmaps hu _
    subst htrees
    refine HasKey.underlay hstacked (hes.erase _) ?_
    rw [← foldl_merge_eq_stacked]
    exact hasKey_merged hwf hmaps hu

/-- What is used arrives, although it is resolved before. -/
theorem useStep_arrive (hdepth : f.depth = 0) {es es' : Entries} (hes : WellFormed (.map es))
    (hp : WellFormedSources reuse p.sources)
    (h : outcome ((s.useStep (s.resolveReused levels) f location position es).run p) w =
      (.ok (es', p'), w')) :
    ∃ sections, Uses p.sources es sections ∧ (∀ u ∈ sections, u.isMapping) ∧
      Arrive sections (.map es') := by
  obtain ⟨sections, huses, hchecked, hcases⟩ := useStep_sections h
  refine ⟨sections, huses, hchecked, ?_⟩
  rcases hcases with ⟨rfl, -⟩ | ⟨-, base, p₁, w₁, hbase, rfl⟩
  · exact arrive_nil _
  · have hwf := huses.wellFormed hp
    have hmerged : (sections.foldl Tree.merge .empty).WellFormed := by
      rw [foldl_merge_eq_stacked]
      exact stacked_wellFormed (by simpa using hwf)
    intro before u after key hsections hmaps hu hkey
    rw [hdepth, flatten_zero]
    cases levels with
    | zero => cases hbase
    | succ levels =>
      -- The merged sections are resolved as any tree is, which keeps their keys.
      have hresolved := ((steps_resolveTree resolved_follows (fun h => ⟨_, _, _, h⟩)
        (steps_resolveMapping_resolved Settings.anyWorld hload (steps_resolve hload) _) _ location
        none).post hmerged hbase hp).1
      subst hsections
      obtain ⟨v, hv⟩ := hasKey_merged hwf hmaps hu
      obtain ⟨v', hv', -⟩ := hresolved.settled _ v
        (avoids_single fun name hname => hkey name (mem_all_of_carriedOut hname)) hv
      exact HasKey.underlay hresolved.wellFormed (hes.erase _) ⟨v', hv'⟩

/-- The passes that carry out the directives of a mapping, with what each step keeps. -/
theorem substitute_keeps_ok {passes : Nat} {es es' : Entries} (hes : WellFormed (.map es))
    (hp : WellFormedSources reuse p.sources)
    (h : outcome ((s.substitute (s.resolveReused levels) f location position passes es).run p) w =
      (.ok (es', p'), w')) :
    ∃ es₁ p₁ w₁ es₂ p₂ w₂ rest,
      (outcome ((s.includeStep f location position es).run p) w = (.ok (es₁, p₁), w₁) ∧
        WellFormed (.map es₁) ∧ WellFormedSources reuse p₁.sources) ∧
      (outcome ((s.useStep (s.resolveReused levels) f location position es₁).run p₁) w₁ =
          (.ok (es₂, p₂), w₂) ∧
        WellFormed (.map es₂) ∧ WellFormedSources reuse p₂.sources ∧
        Keeps (carriedOut s.includes reuse) (.map es₁) (.map es₂)) ∧
      outcome ((s.substitute (s.resolveReused levels) f location position rest es₂).run p₂) w₂ =
          (.ok (es', p'), w') ∧
        Keeps (carriedOut s.includes reuse) (.map es₂) (.map es') := by
  obtain ⟨es₁, p₁, w₁, es₂, p₂, w₂, rest, hinclude, huse, hrest⟩ := substitute_ok h
  obtain ⟨⟨hwf₁, -⟩, hp₁⟩ := (steps_includeStep_keeps Settings.anyWorld hload f location position
    es es).post ⟨hes, Keeps.refl _⟩ hinclude hp
  obtain ⟨⟨hwf₂, hkeeps₂⟩, hp₂⟩ := (steps_useStep_keeps (steps_resolve hload) f location position
    es₁ es₁).post ⟨hwf₁, Keeps.refl _⟩ huse hp₁
  obtain ⟨⟨-, hkeeps₃⟩, -⟩ := (steps_substitute_keeps Settings.anyWorld hload
    (steps_resolve hload) f location position rest es₂ es₂).post ⟨hwf₂, Keeps.refl _⟩ hrest hp₂
  exact ⟨es₁, p₁, w₁, es₂, p₂, w₂, rest, ⟨hinclude, hwf₁, hp₁⟩, ⟨huse, hwf₂, hp₂, hkeeps₂⟩, hrest,
    hkeeps₃⟩

/-- All that a mapping pulls in has been checked, and it arrives. -/
theorem PullsIn.arrive (hdepth : f.depth = 0) {es es' : Entries} {trees : List Tree}
    (h : s.PullsIn (s.resolveReused levels) f location position es p w trees) {passes : Nat}
    (hes : WellFormed (.map es)) (hp : WellFormedSources reuse p.sources)
    (hrun : outcome ((s.substitute (s.resolveReused levels) f location position passes es).run p) w
      = (.ok (es', p'), w')) :
    (∀ u ∈ trees, u.isMapping) ∧ Arrive trees (.map es') := by
  induction h generalizing passes with
  | included hincludes =>
    obtain ⟨es₁, p₁, w₁, es₂, p₂, w₂, rest, ⟨hinclude, -, -⟩, ⟨-, -, -, hkeeps₂⟩, -, hkeeps₃⟩ :=
      substitute_keeps_ok hload hes hp hrun
    obtain ⟨trees', hincludes', harrive⟩ := includeStep_arrive hload hdepth hes hinclude
    obtain rfl := hincludes.unique hincludes'
    exact ⟨hincludes.checked, harrive.of_keeps (fun _ => mem_all_of_carriedOut)
      (hkeeps₂.trans hkeeps₃)⟩
  | used hinclude huses =>
    obtain ⟨es₁, p₁, w₁, es₂, p₂, w₂, rest, ⟨hinclude', hwf₁, hp₁⟩, ⟨huse, -⟩, -, hkeeps₃⟩ :=
      substitute_keeps_ok hload hes hp hrun
    cases hinclude.symm.trans hinclude'
    obtain ⟨sections', huses', hchecked, harrive⟩ := useStep_arrive hload hdepth hwf₁ hp₁ huse
    obtain rfl := huses.unique huses'
    exact ⟨hchecked, harrive.of_keeps (fun _ => mem_all_of_carriedOut) hkeeps₃⟩
  | later hinclude huse _ ih =>
    obtain ⟨es₁, p₁, w₁, es₂, p₂, w₂, rest, ⟨hinclude', -⟩, ⟨huse', hwf₂, hp₂, -⟩, hrest, -⟩ :=
      substitute_keeps_ok hload hes hp hrun
    cases hinclude.symm.trans hinclude'
    cases huse.symm.trans huse'
    exact ih hwf₂ hp₂ hrest

omit hload in
/-- Where there is nothing to carry out the mapping is left alone. -/
theorem substitute_run_of_settled {es : Entries}
    (h : (s.includes && Entries.has es (.str includeKey) ||
      p.sources.isSome && Entries.has es (.str useKey)) = false) (passes : Nat) :
    outcome ((s.substitute resolve f location position passes es).run p) w = (.ok (es, p), w) := by
  unfold substitute
  rw [StateT.run_bind, outcome_bind, isPending_run, h]
  rfl

omit hload in
/-- A mapping is resolved by carrying out its directives, if it has any, and resolving the values. -/
theorem resolveTree_map_ok {room : Nat} {es : Entries} {t : Tree}
    (hf : (Flattening.take es).2 = .ok f)
    (h : outcome ((resolveTree (s.resolveMapping resolve room) location position (.map es)).run p) w
      = (.ok (t, p'), w')) :
    ∃ room' es₁ p₁ w₁ es₂,
      outcome ((s.substitute resolve f location position substitutionLimit
        (Flattening.take es).1).run p) w = (.ok (es₁, p₁), w₁) ∧
      outcome ((resolveEntries (s.resolveMapping resolve room') location position es₁).run p₁) w₁ =
        (.ok (es₂, p'), w') ∧ t = .map es₂ := by
  rw [resolveTree] at h
  split at h
  · obtain ⟨room', f', es₁, p₁, w₁, es₂, hf', hrest⟩ := resolveMapping_ok h
    obtain rfl : f' = f := Except.ok.inj (hf'.symm.trans hf)
    exact ⟨room', es₁, p₁, w₁, es₂, hrest⟩
  next hdirected =>
    obtain ⟨es₂, p₁, w₁, hvalues, hmap⟩ := run_bind_ok h
    cases hmap
    have hwithout := isDirected_eq_false.1 (by simpa using hdirected)
    have hspec : ∀ name ∈ [flattenKey, separatorKey], name ∈ all := by simp [all]
    have htake : (Flattening.take es).1 = es := by
      rw [Flattening.take_of_without fun e he name hname => hwithout e he name (hspec name hname)]
    have hhas := Entries.without_iff_has.1 hwithout
    refine ⟨room, es, p, w, es₂, ?_, hvalues, rfl⟩
    rw [htake]
    refine substitute_run_of_settled ?_ _
    rw [hhas includeKey (by simp [all]), hhas useKey (by simp [all]), Bool.and_false,
      Bool.and_false, Bool.or_false]

/-- What a mapping pulls in arrives in the tree that it is resolved to. -/
theorem resolveTree_arrive {room : Nat} {es : Entries} {t : Tree} {trees : List Tree}
    (hes : WellFormed (.map es)) (hp : WellFormedSources reuse p.sources)
    (hf : (Flattening.take es).2 = .ok f) (hdepth : f.depth = 0)
    (hpulls : s.PullsIn (s.resolveReused levels) f location position (Flattening.take es).1 p w trees)
    (h : outcome ((resolveTree (s.resolveMapping (s.resolveReused levels) room) location position
      (.map es)).run p) w = (.ok (t, p'), w')) :
    (∀ u ∈ trees, u.isMapping) ∧ Arrive trees t := by
  obtain ⟨room', es₁, p₁, w₁, es₂, hsubstitute, hvalues, rfl⟩ := resolveTree_map_ok hf h
  have hown : WellFormed (.map (Flattening.take es).1) := by
    rw [Flattening.take_fst hf]
    exact (hes.erase _).erase _
  obtain ⟨hchecked, harrive⟩ := hpulls.arrive hload hdepth hown hp hsubstitute
  obtain ⟨⟨hwf, -⟩, hp₁⟩ := (steps_substitute_keeps Settings.anyWorld hload (steps_resolve hload) f
    location position substitutionLimit _ _).post ⟨hown, Keeps.refl _⟩ hsubstitute hp
  -- Resolving the values keeps the keys.
  have hresolved := ((steps_resolveEntries (D := WellFormed) (fun e (_ : e ∈ es₁) =>
    steps_resolveTree resolved_follows (fun h => ⟨_, _, _, h⟩)
      (steps_resolveMapping_resolved Settings.anyWorld hload (steps_resolve hload) room') e.2)
    location position).post (fun e he => ((wellFormed_map.1 hwf).2 e he).2) hvalues hp₁).1
  refine ⟨hchecked, fun before u after key htrees hmaps hu hkey => ?_⟩
  obtain ⟨v, hv⟩ := harrive before u after key htrees hmaps hu hkey
  obtain ⟨v', hv', -⟩ := Resolved.values (Keeps.refl _) hresolved
    (avoids_single fun name hname => hkey name (mem_all_of_carriedOut hname)) hv
  exact ⟨v', hv'⟩

end Arriving

end Scope

namespace Settings

/-- Whatever a mapping pulls in has been checked to be a mapping, possibly under a tag. With flatten
depth 0, the keys of each mapping without a tag that no tree under a tag follows are keys of the
result: in the resolution of a document or a section, for every request, and whether the directive
was there from the start or was pulled in. -/
theorem pulled_keys_arrive (s : Settings) (request : Request) (budget room depth levels : Nat)
    (reuse : Bool) (es : Entries) (f : Flattening) (location : String) (position : Position)
    (p p' : Progress) (t : Tree) (w w' : World) :
    let scope := s.scope (fun path chain location =>
      s.loadFile budget (s.includedRequest request.pathField path chain location)) request room
    WellFormed (.map es) → WellFormedSources reuse p.sources →
    (Flattening.take es).2 = .ok f → f.depth = 0 →
    outcome ((Scope.resolveTree (scope.resolveMapping (scope.resolveReused levels) depth) location
      position (.map es)).run p) w = (.ok (t, p'), w') →
    ∀ trees, scope.PullsIn (scope.resolveReused levels) f location position (Flattening.take es).1 p w
        trees →
      (∀ u ∈ trees, u.isMapping) ∧ Scope.Arrive trees t := by
  intro scope hes hp hf hdepth hrun trees hpulls
  exact Scope.resolveTree_arrive
    (fun file chain location => fulfils_loadFile_wellFormed budget (by simp [includedRequest]))
    hes hp hf hdepth hpulls hrun

/-- Two files with one key each. -/
def twoKeys : World :=
  .holding [(["a.yml"], .file "x: 1\n".toUTF8 ⟨0⟩), (["b.yml"], .file "y: 2\n".toUTF8 ⟨0⟩)]

/-- The key of the file that is listed first arrives with that of the other. -/
theorem twoKeys_arrive :
    ∃ t p' w', outcome ((Scope.resolveTree
        (layersScope.resolveMapping (layersScope.resolveReused 1) 1) "n" none
        (.map includingLayers)).run ⟨some [], Ledger.empty⟩) twoKeys = (.ok (t, p'), w') ∧
      t.HasKey (.str "x") ∧ t.HasKey (.str "y") := by
  have hrun : succeeds ((Scope.resolveTree (layersScope.resolveMapping
      (layersScope.resolveReused 1) 1) "n" none (.map includingLayers)).run
      ⟨some [], Ledger.empty⟩) twoKeys (fun _ _ => true) := by decide +kernel
  obtain ⟨⟨t, p'⟩, w', hrun, -⟩ := succeeds_iff.1 hrun
  have htrees : succeeds ((layersScope.includedTrees "n" ["a.yml", "b.yml"]).run
      ⟨some [], Ledger.empty⟩) twoKeys (fun r _ =>
        r.1 = [.map [(.str "x", .int 1)], .map [(.str "y", .int 2)]]) := by decide +kernel
  obtain ⟨⟨trees, p₁⟩, w₁, hloaded, htest⟩ := succeeds_iff.1 htrees
  obtain rfl := of_decide_eq_true htest
  obtain ⟨-, harrive⟩ := pulled_keys_arrive Settings.default
    (LoadOptions.default.request ⟨"/root.yml"⟩ none) 1 0 1 1 true includingLayers ⟨0, "__"⟩ "n" none
    ⟨some [], Ledger.empty⟩ p' t twoKeys w' (by decide +kernel) ⟨rfl, by simp⟩ (by decide +kernel)
    rfl hrun _ (.included ⟨["a.yml", "b.yml"], _, _, rfl, hloaded⟩)
  refine ⟨t, p', w', hrun, ?_, ?_⟩
  · exact harrive [] _ [_] _ rfl (by simp) ⟨_, rfl⟩ (by decide)
  · exact harrive [_] _ [] _ rfl (by simp) ⟨_, rfl⟩ (by decide)

end Settings

end LayeredConfig
