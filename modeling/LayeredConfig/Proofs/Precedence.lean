import LayeredConfig.Proofs.OwnValues

/-!
# Precedence of layers

A mapping with directives is put together from layers: its own entries on top, beneath them the
files it includes, those listed later above those listed earlier, and beneath these the sections it
uses, in the same order. A value of one layer is found in the result unless a layer above covers its
path. The order of the merges that lead to this is the opposite one, and it is repeated at every
depth; the proof goes through the stack of layers that a run of the resolution has merged.
-/

namespace LayeredConfig

open Directive Tree

/-! ## Stacks of layers -/

/-- The layers merged, the first one being on top. -/
def stacked : List Tree → Tree
  | [] => .empty
  | top :: below => (stacked below).merge top

theorem stacked_wellFormed {stack : List Tree} (h : ∀ t ∈ stack, t.WellFormed) :
    (stacked stack).WellFormed := by
  induction stack with
  | nil => exact wellFormed_empty
  | cons top below ih =>
    obtain ⟨htop, hbelow⟩ := List.forall_mem_cons.1 h
    exact (ih hbelow).merge htop

/-- Merging layers one over the other stacks them. -/
theorem foldl_merge_eq_stacked (layers : List Tree) :
    layers.foldl Tree.merge .empty = stacked layers.reverse := by
  rw [← List.foldr_reverse]
  induction layers.reverse with
  | nil => rfl
  | cons top below ih => rw [List.foldr_cons, ih, stacked]

/-- What is not a mapping in a layer is found in the stack if no layer above covers its path. -/
theorem at?_stacked {above below : List Tree} {t v : Tree} {keys : List Tree}
    (hwf : ∀ u ∈ above ++ t :: below, u.WellFormed) (hv : t.at? (keyPath keys) = some v)
    (hleaf : ∀ es, v ≠ .map es) (habove : ∀ u ∈ above, ¬ u.Covers keys) :
    (stacked (above ++ t :: below)).at? (keyPath keys) = some v := by
  induction above with
  | nil =>
    obtain ⟨ht, hbelow⟩ := List.forall_mem_cons.1 hwf
    have hkeeps : Keeps [] t ((stacked below).merge t) :=
      Keeps.merge (stacked_wellFormed hbelow) ht
    exact hkeeps.found (by simp [Avoids]) hv hleaf
  | cons top rest ih =>
    obtain ⟨htop, hrest⟩ := List.forall_mem_cons.1 hwf
    have hunder := ih hrest fun u hu => habove u (List.mem_cons_of_mem _ hu)
    exact at?_merge_of_not_covers (stacked_wellFormed hrest) htop (habove top List.mem_cons_self)
      hunder

/-- A stack covers no more than its layers do. -/
theorem covers_stacked {stack : List Tree} (hwf : ∀ t ∈ stack, t.WellFormed) {key : Tree}
    {rest : List Tree} (h : (stacked stack).Covers (key :: rest)) :
    ∃ t ∈ stack, t.Covers (key :: rest) := by
  induction stack with
  | nil =>
    obtain ⟨v, hget, -⟩ := h
    cases hget
  | cons top below ih =>
    obtain ⟨htop, hbelow⟩ := List.forall_mem_cons.1 hwf
    rcases Covers.of_merge (stacked_wellFormed hbelow) htop h with hcovers | hcovers
    · obtain ⟨t, ht, hcovers⟩ := ih hbelow hcovers
      exact ⟨t, List.mem_cons_of_mem _ ht, hcovers⟩
    · exact ⟨top, List.mem_cons_self, hcovers⟩

theorem stacked_lacks {names : List String} {stack : List Tree}
    (h : ∀ t ∈ stack, t.Lacks names) : (stacked stack).Lacks names := by
  induction stack with
  | nil => exact everywhere_empty
  | cons top below ih =>
    obtain ⟨htop, hbelow⟩ := List.forall_mem_cons.1 h
    exact (ih hbelow).merge htop

/-- A directive has been carried out: a stack of layers has taken the place of its key beneath the
others, or there was nothing to do. -/
def Laid (names : List String) (name : String) (stack : List Tree) (es es' : Entries) : Prop :=
  stack = [] ∧ es' = es ∨
    name ∈ names ∧ es' = underlay (stacked stack) (Entries.erase es (.str name))

section Laid

variable {names : List String} {name : String} {es es' : Entries} {key : Tree} {rest : List Tree}

theorem Laid.at? {above below : List Tree} {t v : Tree}
    (h : Laid names name (above ++ t :: below) es es')
    (hwf : ∀ u ∈ above ++ t :: below, u.WellFormed) (hes : WellFormed (.map es))
    (hpath : Avoids names (keyPath (key :: rest))) (hv : t.at? (keyPath (key :: rest)) = some v)
    (hleaf : ∀ es, v ≠ .map es) (habove : ∀ u ∈ above, ¬ u.Covers (key :: rest))
    (hown : ¬ (Tree.map es).Covers (key :: rest)) :
    (Tree.map es').at? (keyPath (key :: rest)) = some v := by
  rcases h with ⟨hempty, -⟩ | ⟨hname, rfl⟩
  · simp at hempty
  · refine at?_underlay (stacked_wellFormed hwf) (hes.erase _) (fun h => hown (h.of_erase ?_))
      (at?_stacked hwf hv hleaf habove)
    exact (avoids_cons.1 hpath).1 name hname key rfl

theorem Laid.of_covers {stack : List Tree} (h : Laid names name stack es es')
    (hwf : ∀ t ∈ stack, t.WellFormed) (hes : WellFormed (.map es))
    (hpath : Avoids names (keyPath (key :: rest))) (hcovers : (Tree.map es').Covers (key :: rest)) :
    (∃ t ∈ stack, t.Covers (key :: rest)) ∨ (Tree.map es).Covers (key :: rest) := by
  rcases h with ⟨-, rfl⟩ | ⟨hname, rfl⟩
  · exact .inr hcovers
  · rcases Covers.of_underlay (stacked_wellFormed hwf) (hes.erase _) hcovers with hstack | hown
    · exact .inl (covers_stacked hwf hstack)
    · exact .inr (hown.of_erase ((avoids_cons.1 hpath).1 name hname key rfl))

theorem Laid.get? {stack : List Tree} (h : Laid names name stack es es')
    (hwf : ∀ t ∈ stack, t.WellFormed) (hes : WellFormed (.map es)) (hkey : key ≠ .str name)
    (hstack : ∀ t ∈ stack, ¬ t.Covers [key]) : Entries.get? es' key = Entries.get? es key := by
  rcases h with ⟨-, rfl⟩ | ⟨-, rfl⟩
  · rfl
  · rw [get?_underlay (stacked_wellFormed hwf) (hes.erase _), Entries.get?_erase hkey]
    intro hcovers
    obtain ⟨t, ht, hcovers⟩ := covers_stacked hwf hcovers
    exact hstack t ht hcovers

end Laid

/-- A mapping whose flattening has been taken covers no more than before. -/
theorem Tree.Covers.of_take {includes reuse : Bool} {es : Entries} {f : Flattening}
    (hf : (Flattening.take es).2 = .ok f) {key : Tree} {rest : List Tree}
    (hpath : Avoids (carriedOut includes reuse) (keyPath (key :: rest)))
    (h : (Tree.map (Flattening.take es).1).Covers (key :: rest)) :
    (Tree.map es).Covers (key :: rest) := by
  have hkey := (avoids_cons.1 hpath).1
  rw [Flattening.take_fst hf] at h
  exact (h.of_erase (hkey _ (separatorKey_mem_carriedOut _ _) key rfl)).of_erase
    (hkey _ (flattenKey_mem_carriedOut _ _) key rfl)

namespace Scope

variable {s : Scope InWorld} {resolve : Tree → String → Resolving InWorld Tree}

/-! ## What a mapping pulls in -/

/-- Load a file that is included, without merging it. -/
def loadIncluded (s : Scope InWorld) (location : String) (file : FilePath) :
    Resolving InWorld Tree := do
  if s.chain.contains file then s.fail location (.cycle (s.chain ++ [file]))
  let (tree, ledger) ← s.load file s.chain location
  modify fun progress => { progress with ledger := progress.ledger.update ledger }
  if !tree.isMapping then s.fail location (.notMapping file)
  return tree

/-- Load the files that entries name, without merging them. -/
def includedTrees (s : Scope InWorld) (location : String) : List String →
    Resolving InWorld (List Tree)
  | [] => return []
  | raw :: rest => do
    let entry ← s.orFail location (IncludeEntry.parse raw)
    match ← s.find raw entry location with
    | none => includedTrees s location rest
    | some file => do
      let tree ← s.loadIncluded location file
      return tree :: (← includedTrees s location rest)

theorem includeFile_eq (f : Flattening) (location : String) (merged : Tree) (file : FilePath) :
    s.includeFile f location merged file =
      (fun tree => merged.merge (tree.flatten f.separator f.depth)) <$>
        s.loadIncluded location file := by
  unfold includeFile loadIncluded
  split
  · rfl
  · simp only [map_bind]
    refine bind_congr fun (tree, ledger) => bind_congr fun _ => ?_
    split
    · rfl
    · simp

/-- Including files is loading them and merging their flattened trees, the first one first. -/
theorem includeAll_eq (f : Flattening) (location : String) (merged : Tree) (raws : List String) :
    s.includeAll f location merged raws =
      (fun trees => trees.foldl (fun merged tree =>
        merged.merge (tree.flatten f.separator f.depth)) merged) <$>
        s.includedTrees location raws := by
  induction raws generalizing merged with
  | nil => simp [includeAll, includedTrees]
  | cons raw rest ih =>
    unfold includeAll includedTrees
    simp only [map_bind]
    refine bind_congr fun entry => bind_congr fun found => ?_
    cases found with
    | none => exact ih merged
    | some file =>
      simp only [map_bind, includeFile_eq, bind_map_left]
      refine bind_congr fun tree => ?_
      rw [ih, map_eq_pure_bind]
      simp only [map_pure, List.foldl_cons]

/-- The trees of the files that a mapping includes in a resolution that has come so far. -/
def Includes (s : Scope InWorld) (location : String) (es : Entries) (p : Progress) (w : World)
    (trees : List Tree) : Prop :=
  match if s.includes then Entries.get? es (.str includeKey) else none with
  | none => trees = []
  | some value => ∃ raws p' w', Directive.names includeKey value = .ok raws ∧
      outcome ((s.includedTrees location raws).run p) w = (.ok (trees, p'), w')

/-- The sections that a mapping uses, given where they are looked up. -/
def Uses (sources : Option (List Tree)) (es : Entries) (sections : List Tree) : Prop :=
  match sources, Entries.get? es (.str useKey) with
  | some sources, some value => ∃ names, Directive.names useKey value = .ok names ∧
      List.Forall₂ (fun name t => sectionNamed? sources name = some t) names sections
  | _, _ => sections = []

theorem steps_includedTrees {S : FilePath → Prop} {K : World → Prop}
    {J : Option (List Tree) → Prop} {P : Prop} {G : Tree → Prop} (hK : Unnoted K)
    (hload : ∀ file chain location, Fulfils S K True (s.load file chain location) fun r => G r.1)
    (location : String) (raws : List String) :
    Steps S K J P (s.includedTrees location raws) fun trees => ∀ t ∈ trees, G t := by
  induction raws generalizing P with
  | nil => exact Steps.pure (by simp)
  | cons raw rest ih =>
    unfold includedTrees
    refine Steps.orFail.bind fun entry => (steps_find hK _ _ _).bind fun found => ?_
    cases found with
    | none => exact ih
    | some file =>
      refine Steps.bind (Q := G) ?_ fun tree => ih.bind fun trees =>
        Steps.pure fun h => List.forall_mem_cons.2 ⟨h.1.2, h.2⟩
      unfold loadIncluded
      split
      · exact Steps.fail_bind
      · refine (Steps.load ((hload _ _ _).mono (fun _ => trivial) fun _ h => h)).bind
          fun (tree, ledger) => (steps_modify_ledger _).bind fun _ => ?_
        split
        · exact Steps.fail_bind
        · exact Steps.pure fun h => h.1.2

/-- What an `_include` that is carried out does to a mapping. -/
theorem includeStep_ok {reuse : Bool} {f : Flattening} (hdepth : f.depth = 0) {location : String}
    {position : Position} {es es' : Entries} {p p' : Progress} {w w' : World}
    (h : outcome ((s.includeStep f location position es).run p) w = (.ok (es', p'), w')) :
    ∃ trees, s.Includes location es p w trees ∧
      Laid (carriedOut s.includes reuse) includeKey trees.reverse es es' := by
  unfold includeStep at h
  dsimp only at h
  split at h
  next hnone =>
    cases h
    exact ⟨[], by unfold Includes; rw [hnone], .inl ⟨rfl, rfl⟩⟩
  next value hvalue =>
    have hincludes : s.includes = true := by
      by_contra hincludes
      simp [hincludes] at hvalue
    obtain ⟨base, p₁, w₁, hbase, h⟩ := run_bind_ok h
    obtain ⟨_, p₂, w₂, -, h⟩ := run_bind_ok h
    cases h
    unfold included at hbase
    obtain ⟨raws, p₃, w₃, hraws, hmerged⟩ := run_bind_ok hbase
    obtain ⟨hparsed, rfl, rfl⟩ := orFail_ok hraws
    rw [includeAll_eq, map_eq_pure_bind] at hmerged
    obtain ⟨trees, p₄, w₄, htrees, hmerged⟩ := run_bind_ok hmerged
    cases hmerged
    refine ⟨trees, ?_, .inr ⟨by simp [carriedOut, hincludes], ?_⟩⟩
    · unfold Includes
      rw [hvalue]
      exact ⟨raws, _, _, hparsed, htrees⟩
    · rw [← foldl_merge_eq_stacked]
      simp only [hdepth, flatten_zero]

/-- Reused sections without directives are resolved to themselves. -/
theorem resolveReused_of_lacks {levels : Nat} {base t : Tree} (hbase : base.Lacks all)
    {location : String} {p p' : Progress} {w w' : World}
    (h : outcome ((s.resolveReused levels base location).run p) w = (.ok (t, p'), w')) :
    t = base := by
  cases levels with
  | zero => cases h
  | succ levels =>
    rw [resolveReused, resolveTree_of_lacks hbase] at h
    cases h
    rfl

/-- Every section that is merged is a mapping, possibly under a tag. -/
theorem mergeSections_checked {sources : List Tree} {location : String} {merged t : Tree}
    {names : List String} {p p' : Progress} {w w' : World}
    (h : outcome ((s.mergeSections sources location merged names).run p) w = (.ok (t, p'), w')) :
    ∀ name ∈ names, ∀ u, sectionNamed? sources name = some u → u.isMapping := by
  induction names generalizing merged with
  | nil => simp
  | cons name rest ih =>
    unfold mergeSections at h
    split at h
    · cases h
    next found hfound =>
      split at h
      next hmapping =>
        refine List.forall_mem_cons.2 ⟨fun u hu => ?_, ih h⟩
        cases hfound.symm.trans hu
        exact hmapping
      · cases h

/-- A `_use` that is carried out merges sections, resolves them together and places them beneath the
mapping. -/
theorem useStep_sections {f : Flattening} {location : String} {position : Position}
    {es es' : Entries} {p p' : Progress} {w w' : World}
    (h : outcome ((s.useStep resolve f location position es).run p) w = (.ok (es', p'), w')) :
    ∃ sections, Uses p.sources es sections ∧ (∀ u ∈ sections, u.isMapping) ∧
      (sections = [] ∧ es' = es ∨ p.sources.isSome ∧ ∃ base p₁ w₁,
        outcome ((resolve (sections.foldl Tree.merge .empty) location).run p) w =
          (.ok (base, p₁), w₁) ∧
        es' = Tree.underlay (base.flatten f.separator f.depth)
          (Entries.erase es (.str useKey))) := by
  unfold useStep at h
  dsimp only at h
  obtain ⟨progress, p₁, w₁, hget, h⟩ := run_bind_ok h
  cases hget
  split at h
  next sources value hsources hvalue =>
    obtain ⟨base, p₁, w₁, hbase, h⟩ := run_bind_ok h
    obtain ⟨_, p₂, w₂, -, h⟩ := run_bind_ok h
    cases h
    unfold reused at hbase
    obtain ⟨names, p₃, w₃, hnames, hreused⟩ := run_bind_ok hbase
    obtain ⟨hparsed, rfl, rfl⟩ := orFail_ok hnames
    obtain ⟨merged, p₄, w₄, hmerged, hresolved⟩ := run_bind_ok hreused
    have hchecked := mergeSections_checked hmerged
    obtain ⟨rfl, rfl, sections, hsections, rfl⟩ := mergeSections_ok hmerged
    obtain ⟨t, p₅, w₅, ht, hflat⟩ := run_bind_ok hresolved
    cases hflat
    refine ⟨sections, ?_, fun u hu => ?_, .inr ⟨by rw [hsources]; rfl, t, _, _, ht, rfl⟩⟩
    · unfold Uses
      rw [hsources, hvalue]
      exact ⟨names, hparsed, hsections⟩
    · obtain ⟨name, hname, hfound⟩ := exists_of_mem_forall₂ hsections hu
      exact hchecked name hname u hfound
  next hnone =>
    cases h
    refine ⟨[], ?_, by simp, .inl ⟨rfl, rfl⟩⟩
    unfold Uses
    split
    next sources value hsources hvalue => exact absurd hvalue (hnone sources value hsources)
    · rfl

/-- What a `_use` of sections without directives does to a mapping. -/
theorem useStep_ok {levels : Nat} {f : Flattening} (hdepth : f.depth = 0) {location : String}
    {position : Position} {es es' : Entries} {p p' : Progress} {w w' : World}
    (h : outcome ((s.useStep (s.resolveReused levels) f location position es).run p) w =
      (.ok (es', p'), w')) :
    ∃ sections, Uses p.sources es sections ∧ ((∀ u ∈ sections, u.Lacks all) →
      Laid (carriedOut s.includes p.sources.isSome) useKey sections.reverse es es') := by
  obtain ⟨sections, huses, -, ⟨rfl, rfl⟩ | ⟨hreuse, base, p₁, w₁, hbase, rfl⟩⟩ := useStep_sections h
  · exact ⟨[], huses, fun _ => .inl ⟨rfl, rfl⟩⟩
  · refine ⟨sections, huses, fun hlacks => .inr ⟨by simp [carriedOut, hreuse], ?_⟩⟩
    rw [foldl_merge_eq_stacked] at hbase
    rw [hdepth, flatten_zero, resolveReused_of_lacks (stacked_lacks (by simpa using hlacks)) hbase]

/-! ## Runs of the resolution of a mapping -/

/-- The directives of a mapping are carried out one after the other, and then those that they have
brought along. -/
theorem substitute_ok {f : Flattening} {location : String} {position : Position} {passes : Nat}
    {es es' : Entries} {p p' : Progress} {w w' : World}
    (h : outcome ((s.substitute resolve f location position passes es).run p) w =
      (.ok (es', p'), w')) :
    ∃ es₁ p₁ w₁ es₂ p₂ w₂ rest,
      outcome ((s.includeStep f location position es).run p) w = (.ok (es₁, p₁), w₁) ∧
      outcome ((s.useStep resolve f location position es₁).run p₁) w₁ = (.ok (es₂, p₂), w₂) ∧
      outcome ((s.substitute resolve f location position rest es₂).run p₂) w₂ =
        (.ok (es', p'), w') := by
  have hrun := h
  unfold substitute at hrun
  obtain ⟨pending, p₁, w₁, hpending, hrun⟩ := run_bind_ok hrun
  cases hpending
  split at hrun
  next hnone =>
    -- with nothing pending both steps leave the mapping alone
    rw [Bool.not_eq_true', Bool.or_eq_false_iff] at hnone
    exact ⟨es, p, w, es, p, w, passes, includeStep_run hnone.1 p w, useStep_run hnone.2 w, h⟩
  next =>
    split at hrun
    · cases hrun
    next rest _ =>
      obtain ⟨es₁, p₁, w₁, hinclude, hrun⟩ := run_bind_ok hrun
      obtain ⟨es₂, p₂, w₂, huse, hrun⟩ := run_bind_ok hrun
      exact ⟨es₁, p₁, w₁, es₂, p₂, w₂, rest, hinclude, huse, hrun⟩

theorem resolveMapping_ok {room : Nat} {es : Entries} {location : String} {position : Position}
    {t : Tree} {p p' : Progress} {w w' : World}
    (h : outcome ((s.resolveMapping resolve room es location position).run p) w =
      (.ok (t, p'), w')) :
    ∃ room f es₁ p₁ w₁ es₂, (Flattening.take es).2 = .ok f ∧
      outcome ((s.substitute resolve f location position substitutionLimit
        (Flattening.take es).1).run p) w = (.ok (es₁, p₁), w₁) ∧
      outcome ((resolveEntries (s.resolveMapping resolve room) location position es₁).run p₁) w₁ =
        (.ok (es₂, p'), w') ∧ t = .map es₂ := by
  cases room with
  | zero => cases h
  | succ room =>
    unfold resolveMapping at h
    dsimp only at h
    obtain ⟨f, p₁, w₁, hflattening, hrest⟩ := run_bind_ok h
    obtain ⟨hf, rfl, rfl⟩ := orFail_ok hflattening
    obtain ⟨es₁, p₂, w₂, hes₁, hvalues⟩ := run_bind_ok hrest
    obtain ⟨es₂, p₃, w₃, hes₂, hmap⟩ := run_bind_ok hvalues
    cases hmap
    exact ⟨room, f, es₁, p₂, w₂, es₂, hf, hes₁, hes₂, rfl⟩

/-! ## Layers of a mapping -/

/-- What is laid beneath a mapping by its directives, in a run of its resolution: the trees it
includes and, beneath these, the sections it uses. The mapping may have got its `_use` from the
trees it includes, but only from these. -/
structure Draws (s : Scope InWorld) (f : Flattening) (location : String) (position : Position)
    (es : Entries) (p : Progress) (w : World) (trees sections : List Tree) : Prop where
  included : s.Includes location es p w trees
  used : ∃ es₁ p₁ w₁,
    outcome ((s.includeStep f location position es).run p) w = (.ok (es₁, p₁), w₁) ∧
    Uses p₁.sources es₁ sections ∧ ((∀ u ∈ trees, ¬ u.Covers [.str useKey]) →
      Entries.get? es₁ (.str useKey) = Entries.get? es (.str useKey))

/-- The tree has the value at the path as it is or, if it is a sequence, with its items resolved;
without directives in it, as it is. -/
def Holds (s : Scope InWorld) (levels : Nat) (reuse : Bool) (t : Tree) (path : List Step)
    (v : Tree) : Prop :=
  ∃ v', t.at? path = some v' ∧ s.ResolvesLeaf (s.resolveReused levels) reuse v v' ∧
    (v.Lacks all → v' = v)

/-- What a mapping's layers hold is found in the result: its own entries are on top, beneath them
are the included trees, the last one first, and beneath these the sections, again the last one
first. A value that is no mapping is found if its path is covered by no layer above. -/
def Layered (s : Scope InWorld) (levels : Nat) (reuse : Bool) (es : Entries)
    (trees sections : List Tree) (t : Tree) : Prop :=
  (∀ u ∈ sections, u.Lacks all) → ∀ above layer below keys v,
    .map es :: (trees.reverse ++ sections.reverse) = above ++ layer :: below →
    Avoids (carriedOut s.includes reuse) (keyPath keys) →
    layer.at? (keyPath keys) = some v → (∀ es, v ≠ .map es) → (∀ u ∈ above, ¬ u.Covers keys) →
    s.Holds levels reuse t (keyPath keys) v

theorem Settles.holds {levels : Nat} {reuse : Bool} {t v v' : Tree} {path : List Step}
    (hv : t.at? path = some v') (h : s.Settles (s.resolveReused levels) reuse v v')
    (hleaf : ∀ es, v ≠ .map es) : s.Holds levels reuse t path v :=
  ⟨v', hv, h.resolvesLeaf hleaf, (h.resolvesLeaf hleaf).eq_of_lacks⟩

/-- Where a layer stands in the stack of a mapping's own entries, included trees and sections. -/
theorem layer_cases {own t : Tree} {trees sections above below : List Tree}
    (h : own :: (trees ++ sections) = above ++ t :: below) :
    t = own ∨
      (∃ above' below', trees = above' ++ t :: below' ∧ above = own :: above') ∨
      ∃ above', sections = above' ++ t :: below ∧ above = own :: (trees ++ above') := by
  cases above with
  | nil => exact .inl (List.cons_eq_cons.1 h).1.symm
  | cons first above =>
    obtain ⟨rfl, hrest⟩ := List.cons_eq_cons.1 h
    rcases List.append_eq_append_iff.1 hrest with ⟨above', rfl, hsections⟩ | ⟨rest, htrees, hrest⟩
    · exact .inr (.inr ⟨above', hsections, rfl⟩)
    · cases rest with
      | nil =>
        rw [List.append_nil] at htrees
        exact .inr (.inr ⟨[], by simpa using hrest.symm, by simp [htrees]⟩)
      | cons first rest =>
        obtain ⟨rfl, -⟩ := List.cons_eq_cons.1 hrest
        exact .inr (.inl ⟨above, rest, htrees, rfl⟩)

/-- Every tree covers the empty path, so only the mapping on top could be found there. -/
theorem path_ne_nil {es : Entries} {stack above below : List Tree} {layer v : Tree}
    {keys : List Tree} (hstack : .map es :: stack = above ++ layer :: below)
    (hv : layer.at? (keyPath keys) = some v) (hleaf : ∀ es, v ≠ .map es)
    (habove : ∀ u ∈ above, ¬ u.Covers keys) : ∃ key rest, keys = key :: rest := by
  cases keys with
  | cons key rest => exact ⟨key, rest, rfl⟩
  | nil =>
    cases above with
    | nil =>
      obtain ⟨rfl, -⟩ := List.cons_eq_cons.1 hstack
      cases hv
      exact absurd rfl (hleaf es)
    | cons u above => exact absurd (by cases u <;> trivial) (habove u List.mem_cons_self)

theorem Includes.wellFormed
    (hload : ∀ file chain location, Fulfils (fun _ => True) (fun _ => True) True
      (s.load file chain location) fun r => r.1.WellFormed)
    {location : String} {es : Entries} {p : Progress} {w : World} {trees : List Tree}
    (h : s.Includes location es p w trees) : ∀ t ∈ trees, t.WellFormed := by
  unfold Includes at h
  split at h
  · simp [h]
  · obtain ⟨raws, p', w', -, hrun⟩ := h
    have hsteps : Steps (fun _ => True) (fun _ => True) (fun _ => True) True
        (s.includedTrees location raws) fun trees => ∀ t ∈ trees, t.WellFormed :=
      steps_includedTrees Settings.anyWorld hload location raws
    exact (hsteps.post trivial hrun trivial).1

theorem Uses.wellFormed {reuse : Bool} {sources : Option (List Tree)}
    (hsources : WellFormedSources reuse sources) {es : Entries} {sections : List Tree}
    (h : Uses sources es sections) : ∀ t ∈ sections, t.WellFormed := by
  unfold Uses at h
  split at h
  next list _ _ =>
    obtain ⟨names, -, hsections⟩ := h
    intro t ht
    obtain ⟨name, -, hfound⟩ := exists_of_mem_forall₂ hsections ht
    obtain ⟨source, hsource, hlookup⟩ := List.exists_of_findSome?_eq_some hfound
    exact WellFormed.lookup (hsources.2 list rfl source hsource) hlookup
  · simp [h]

/-- The trees that a mapping includes are those of any run that loads them. -/
theorem Includes.eq_of_run {location : String} {es : Entries} {p : Progress} {w : World}
    {trees : List Tree} (h : s.Includes location es p w trees) (hincludes : s.includes = true)
    {value : Tree} (hvalue : Entries.get? es (.str includeKey) = some value) {raws : List String}
    (hraws : Directive.names includeKey value = .ok raws) {trees' : List Tree} {p' : Progress}
    {w' : World}
    (hrun : outcome ((s.includedTrees location raws).run p) w = (.ok (trees', p'), w')) :
    trees = trees' := by
  unfold Includes at h
  rw [if_pos hincludes, hvalue] at h
  obtain ⟨raws', p₁, w₁, hraws', hrun'⟩ := h
  obtain rfl := Except.ok.inj (hraws'.symm.trans hraws)
  cases hrun'.symm.trans hrun
  rfl

theorem Uses.eq_nil {sources : Option (List Tree)} {es : Entries} {sections : List Tree}
    (h : Uses sources es sections) (hes : Entries.get? es (.str useKey) = none) :
    sections = [] := by
  unfold Uses at h
  rw [hes] at h
  cases sources <;> exact h

section Layers

variable {reuse : Bool} {levels : Nat}
  (hload : ∀ file chain location, Fulfils (fun _ => True) (fun _ => True) True
    (s.load file chain location) fun r => r.1.WellFormed)
include hload

theorem steps_resolve (base : Tree) (location : String) :
    Steps (fun _ => True) (fun _ => True) (WellFormedSources reuse) base.WellFormed
      (s.resolveReused levels base location) WellFormed :=
  steps_resolveReused_wellFormed Settings.anyWorld hload levels base location

/-- What a mapping has kept until its values are resolved is found in the result. -/
theorem holds_of_values {room : Nat} {location : String} {position : Position}
    {own es es' : Entries} {p p' : Progress} {w w' : World}
    (hkeeps : Keeps (carriedOut s.includes reuse) (.map own) (.map es))
    (hes : WellFormed (.map es)) (hp : WellFormedSources reuse p.sources)
    (h : outcome ((resolveEntries (s.resolveMapping (s.resolveReused levels) room) location
      position es).run p) w = (.ok (es', p'), w'))
    {key v : Tree} {rest : List Tree}
    (hpath : Avoids (carriedOut s.includes reuse) (keyPath (key :: rest)))
    (hv : (Tree.map own).at? (keyPath (key :: rest)) = some v) (hleaf : ∀ es, v ≠ .map es) :
    s.Holds levels reuse (.map es') (keyPath (key :: rest)) v := by
  have hresolved := ((steps_resolveEntries (D := WellFormed) (fun e (_ : e ∈ es) =>
    steps_resolveTree resolved_follows (fun h => ⟨_, _, _, h⟩)
      (steps_resolveMapping_resolved Settings.anyWorld hload (steps_resolve hload) room) e.2)
    location position).post (fun e he => ((wellFormed_map.1 hes).2 e he).2) h hp).1
  obtain ⟨v', hv', hsettles⟩ := Resolved.values hkeeps hresolved hpath hv
  exact hsettles.holds hv' hleaf

/-- The layers of a mapping with directives. -/
theorem resolveMapping_layers {room : Nat} {es : Entries} {f : Flattening} {location : String}
    {position : Position} {t : Tree} {p p' : Progress} {w w' : World}
    (hes : WellFormed (.map es)) (hp : WellFormedSources reuse p.sources)
    (hf : (Flattening.take es).2 = .ok f) (hdepth : f.depth = 0)
    (h : outcome ((s.resolveMapping (s.resolveReused levels) room es location position).run p) w =
      (.ok (t, p'), w')) :
    ∃ trees sections, s.Draws f location position (Flattening.take es).1 p w trees sections ∧
      s.Layered levels reuse es trees sections t := by
  obtain ⟨room, f', es₃, p₃, w₃, es', hf', hsubstitute, hvalues, rfl⟩ := resolveMapping_ok h
  obtain rfl : f' = f := Except.ok.inj (hf'.symm.trans hf)
  obtain ⟨es₁, p₁, w₁, es₂, p₂, w₂, passes, hinclude, huse, hrest⟩ := substitute_ok hsubstitute
  obtain ⟨trees, hincludes, hes₁⟩ := includeStep_ok hdepth hinclude
  obtain ⟨sections, huses, hes₂⟩ := useStep_ok hdepth huse
  obtain ⟨hown, hkeeps⟩ := KeepsEntries.take hes hf (flattenKey_mem_carriedOut s.includes reuse)
    (separatorKey_mem_carriedOut s.includes reuse)
  obtain ⟨⟨hwf₁, hkeeps₁⟩, hp₁⟩ := (steps_includeStep_keeps Settings.anyWorld hload f' location
    position _ _).post ⟨hown, Keeps.refl _⟩ hinclude hp
  obtain ⟨⟨hwf₂, hkeeps₂⟩, hp₂⟩ := (steps_useStep_keeps (steps_resolve hload) f' location position
    es₁ es₁).post ⟨hwf₁, Keeps.refl _⟩ huse hp₁
  obtain ⟨⟨hwf₃, hkeeps₃⟩, hp₃⟩ := (steps_substitute_keeps Settings.anyWorld hload
    (steps_resolve hload) f' location position passes es₂ es₂).post ⟨hwf₂, Keeps.refl _⟩ hrest hp₂
  have htrees : ∀ u ∈ trees.reverse, u.WellFormed := by simpa using hincludes.wellFormed hload
  have hsections : ∀ u ∈ sections.reverse, u.WellFormed := by simpa using huses.wellFormed hp₁
  refine ⟨trees, sections, ⟨hincludes, es₁, p₁, w₁, hinclude, huses, fun hcovers =>
    hes₁.get? htrees hown (by decide) (by simpa using hcovers)⟩, ?_⟩
  intro hlacks above layer below keys v hstack hpath hv hleaf habove
  obtain ⟨key, rest, rfl⟩ := path_ne_nil hstack hv hleaf habove
  refine holds_of_values hload hkeeps₃ hwf₃ hp₃ hvalues hpath ?_ hleaf
  rcases layer_cases hstack with rfl | ⟨above, below, htrees', rfl⟩ | ⟨above, hsections', rfl⟩
  · exact hkeeps₂.found hpath (hkeeps₁.found hpath (hkeeps.found hpath hv hleaf) hleaf) hleaf
  · obtain ⟨hself, habove⟩ := List.forall_mem_cons.1 habove
    rw [htrees'] at hes₁ htrees
    exact hkeeps₂.found hpath (hes₁.at? htrees hown hpath hv hleaf habove fun hcovers =>
      hself (Covers.of_take hf hpath hcovers)) hleaf
  · obtain ⟨hself, habove⟩ := List.forall_mem_cons.1 habove
    obtain ⟨htrees', habove⟩ := List.forall_mem_append.1 habove
    have hes₂ := hes₂ hlacks
    rw [hp₁.1, hsections'] at hes₂
    rw [hsections'] at hsections
    refine hes₂.at? hsections hwf₁ hpath hv hleaf habove fun hcovers => ?_
    rcases hes₁.of_covers htrees hown hpath hcovers with ⟨u, hu, hcovers⟩ | hcovers
    · exact htrees' u hu hcovers
    · exact hself (Covers.of_take hf hpath hcovers)

/-- The layers of a mapping: its own entries on top, beneath them the trees it includes, the last
one first, and beneath these the sections it uses, again the last one first. -/
theorem resolveTree_layers {room : Nat} {es : Entries} {f : Flattening} {location : String}
    {position : Position} {t : Tree} {p p' : Progress} {w w' : World}
    (hes : WellFormed (.map es)) (hp : WellFormedSources reuse p.sources)
    (hf : (Flattening.take es).2 = .ok f) (hdepth : f.depth = 0)
    (h : outcome ((resolveTree (s.resolveMapping (s.resolveReused levels) room) location position
      (.map es)).run p) w = (.ok (t, p'), w')) :
    ∃ trees sections, s.Draws f location position (Flattening.take es).1 p w trees sections ∧
      s.Layered levels reuse es trees sections t := by
  rw [resolveTree] at h
  split at h
  · exact resolveMapping_layers hload hes hp hf hdepth h
  next hdirected =>
    obtain ⟨es', p₁, w₁, hvalues, hmap⟩ := run_bind_ok h
    cases hmap
    -- nothing is laid beneath a mapping without directives
    have hwithout : Entries.Without all (Flattening.take es).1 := by
      rw [Flattening.take_fst hf]
      exact ((isDirected_eq_false.1 (by simpa using hdirected)).erase _).erase _
    have hhas := Entries.without_iff_has.1 hwithout
    have hget : ∀ name ∈ all, Entries.get? (Flattening.take es).1 (.str name) = none := by
      intro name hname
      simpa [Entries.has_eq_isSome] using hhas name hname
    refine ⟨[], [], ⟨?_, _, p, w, includeStep_run ?_ p w, ?_, fun _ => rfl⟩, ?_⟩
    · simp [Includes, hget includeKey (by simp [all])]
    · simp [hhas includeKey (by simp [all])]
    · simp [Uses, hget useKey (by simp [all])]
    · intro _ above layer below keys v hstack hpath hv hleaf habove
      obtain ⟨key, rest, rfl⟩ := path_ne_nil hstack hv hleaf habove
      obtain rfl : layer = .map es := by
        rcases layer_cases hstack with rfl | ⟨_, _, hnil, -⟩ | ⟨_, hnil, -⟩
        · rfl
        · simp at hnil
        · simp at hnil
      exact holds_of_values hload (Keeps.refl _) hes hp hvalues hpath hv hleaf

end Layers

/-- In the place of each value of the document the tree has what it is resolved to. A mapping has
more entries beneath its own when it is resolved; a value that is no mapping is as it was. -/
def HoldsOwn (s : Scope InWorld) (reuse : Bool) (document t : Tree) : Prop :=
  ∀ path v, Avoids (carriedOut s.includes reuse) path → document.at? path = some v →
    ((∀ es, v ≠ .map es) → s.Holds substitutionLimit reuse t path v) ∧
    ∀ es, v = .map es → ∃ es' t', t.at? path = some t' ∧ WellFormed (.map es') ∧
      Keeps (carriedOut s.includes reuse) (.map es) (.map es') ∧
      s.Resolves (s.resolveReused substitutionLimit) reuse (.map es') t'

theorem Resolved.holdsOwn {reuse : Bool} {document t : Tree}
    (h : s.Resolved (s.resolveReused substitutionLimit) reuse document t) :
    s.HoldsOwn reuse document t := by
  intro path v hpath hv
  obtain ⟨v', hv', hsettles⟩ := h.settled path v hpath hv
  refine ⟨hsettles.holds hv', ?_⟩
  rintro es rfl
  obtain ⟨u, hu, hkeeps, hresolves⟩ := hsettles
  cases hkeeps.alike with
  | map _ es' => exact ⟨es', v', hv', hu, hkeeps, hresolves⟩
  | same => exact ⟨es, v', hv', hu, hkeeps, hresolves⟩

end Scope

/-! ## Precedence -/

/-- A world with two files that differ in one value. -/
def twoLayers : World :=
  .holding [(["a.yml"], .file "x: 1\n".toUTF8 ⟨0⟩), (["b.yml"], .file "x: 2\n".toUTF8 ⟨0⟩)]

/-- A mapping that includes both files. -/
def includingLayers : Entries :=
  [(.str "_include", .seq [.str "a.yml", .str "b.yml"]), (.str "own", .int 0)]

/-- What the resolution of the mapping is told. -/
def layersScope : Scope InWorld := Settings.default.scopeFor LoadOptions.default ⟨"/root.yml"⟩ 1 0

/-- A world with a file that is included by the document and one that a mapping in it includes. -/
def surrounding : World :=
  .holding [(["r.yml"], .file "n: \x7bx: 0\x7d\n".toUTF8 ⟨0⟩),
    (["f.yml"], .file "x: 1\n".toUTF8 ⟨0⟩)]

end LayeredConfig
