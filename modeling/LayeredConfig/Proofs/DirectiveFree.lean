import LayeredConfig.Proofs.Directives
import LayeredConfig.Proofs.Resolution

/-!
# Results have no directives

A directive can enter a tree at many points: with an included file, whose `_use` is left to the
including document, with a reused section, by flattening, and by a merge beneath a mapping whose
flattening was already taken off. If all separators are clear of the names of directives, none of
this leaves a directive in a result.

What is carried through a resolution is that all separators asked for are clear, in the tree at hand
and in the sources, and that the mapping at hand has no flattening. The recursion goes through trees
within mappings, mappings within nested directives, reused sections within each other, and files
within files.
-/

namespace LayeredConfig

open Directive

/-- Sections are looked up in trees whose separators are clear, or not at all. -/
def ClearSources (reuse : Bool) (sources : Option (List Tree)) : Prop :=
  sources.isSome = reuse ∧ ∀ list ∈ sources, ∀ t ∈ list, t.SeparatorsClear

/-- A mapping whose flattening was taken off and whose separators are clear. -/
def ClearEntries (es : Entries) : Prop :=
  (Tree.map es).SeparatorsClear ∧ Entries.Without [flattenKey, separatorKey] es

namespace Scope

variable {S : FilePath → Prop} {K : World → Prop} {reuse : Bool} {P : Prop} {s : Scope InWorld}

/-! ## One mapping -/

theorem clearSources_rebindable : Rebindable (ClearSources reuse) ClearEntries := by
  intro es own others path new hes ⟨hreuse, hclear⟩ hnew
  refine ⟨hreuse, fun list hlist t ht => ?_⟩
  cases hlist
  have hothers : ∀ t ∈ others, t.SeparatorsClear := fun t ht =>
    hclear _ rfl t (List.mem_cons_of_mem _ ht)
  rcases List.mem_cons.1 ht with rfl | ht
  · exact (Tree.Everywhere.replace? hes.1 (by simp) (by simp) (hclear _ rfl own List.mem_cons_self)
      hnew).1
  · exact hothers t ht

/-- Placing a tree beneath a mapping whose flattening was taken off brings none back. -/
theorem clearEntries_underlay {base : Tree} {es : Entries} (hes : ClearEntries es)
    (hbase : base.Lacks (carriedOut true reuse)) (key : Tree) :
    ClearEntries (Tree.underlay base (Entries.erase es key)) := by
  obtain ⟨hclear, hwithout⟩ := hes
  constructor
  · exact Tree.Everywhere.underlay Tree.layered_separatorsClear
      (hbase.separatorsClear (separatorKey_mem_carriedOut true reuse))
      (Tree.Everywhere.erase hclear key)
  · refine Entries.Without.underlay (hbase.mono fun name hname => ?_) (hwithout.erase key)
    cases reuse <;> simp only [carriedOut] <;> grind

/-- A mapping without flattening in which nothing is pending has no directive. -/
theorem without_of_settled {es : Entries} (hes : Entries.Without [flattenKey, separatorKey] es)
    (h : Settled true reuse es) : Entries.Without (carriedOut true reuse) es := by
  rw [Entries.without_iff_has]
  have hflat := Entries.without_iff_has.1 hes
  obtain ⟨hinclude, huse⟩ := h
  cases reuse <;> simp_all [carriedOut]

/-! ## Trees -/

/-- Entries that keep their keys while their values are resolved. -/
theorem lacks_of_entries {names : List String} {es es' : Entries} (h : Entries.Without names es)
    (hes : List.Forall₂ (fun e e' => e'.1 = e.1 ∧ e'.2.Lacks names) es es') :
    (Tree.map es').Lacks names := by
  refine Entries.lacks_map.2 ⟨fun e' he' => ?_, fun e' he' => ?_⟩
  · obtain ⟨e, he, hkey, -⟩ := exists_of_mem_forall₂ hes he'
    rw [hkey]
    exact h e he
  · obtain ⟨e, -, -, hvalue⟩ := exists_of_mem_forall₂ hes he'
    exact hvalue

/-- Resolving leaves a tree whose separators are clear without directives. -/
theorem lacks_follows : Follows Tree.SeparatorsClear (fun _ _ => True) fun _ t =>
    t.Lacks (carriedOut true reuse) where
  inItems h := Tree.everywhere_seq.1 h
  inEntries h e he := (Tree.everywhere_map.1 h e he).2
  leaf {t} _ hseq hmap _ := by
    cases t with
    | seq items => exact absurd rfl (hseq items)
    | map es => exact absurd rfl (hmap es)
    | _ => trivial
  seq _ _ h := Tree.everywhere_seq.2 fun t' ht' => by
    obtain ⟨t, -, hlacks⟩ := exists_of_mem_forall₂ h ht'
    exact hlacks
  map _ hdirected _ h := lacks_of_entries
    (fun e he name hname =>
      isDirected_eq_false.1 hdirected e he name (mem_all_of_carriedOut hname)) h

section Resolving

variable (hK : Unnoted K) (hincludes : s.includes = true)
  (hload : ∀ file chain location, Fulfils S K True (s.load file chain location) fun r =>
    r.1.Lacks (carriedOut true false))
include hK hincludes hload

theorem steps_substitute_clear {resolve : Tree → String → Resolving InWorld Tree}
    (hresolve : ∀ base location, Steps S K (ClearSources reuse) base.SeparatorsClear
      (resolve base location) fun t => t.Lacks (carriedOut true reuse))
    (f : Flattening) (location : String) (position : Position) (es : Entries) :
    Steps S K (ClearSources reuse) (IsClear f.separator ∧ ClearEntries es)
      (s.substitute resolve f location position substitutionLimit es) fun es =>
        ClearEntries es ∧ Settled true reuse es := by
  -- whatever a clear separator flattens stays without directives
  have hflatten : ∀ {reuse : Bool} {t : Tree}, IsClear f.separator →
      t.Lacks (carriedOut true reuse) →
      (t.flatten f.separator f.depth).Lacks (carriedOut true reuse) :=
    fun hsep ht => ht.flatten (fun _ => mem_all_of_carriedOut) hsep f.depth
  have hincluded : ∀ value, Steps S K (ClearSources reuse) (IsClear f.separator)
      (s.included value location f) fun t => t.Lacks (carriedOut true false) :=
    steps_included hK Tree.everywhere_empty Tree.Lacks.merge fun file chain location =>
      ((hload file chain location).mono (fun _ => trivial) fun _ h => h).keep.mono id
        fun _ h => hflatten h.1 h.2
  have hreused : ∀ sources value, Steps S K (ClearSources reuse)
      (IsClear f.separator ∧ ClearSources reuse (some sources))
      (s.reused resolve sources value location f) fun t => t.Lacks (carriedOut true reuse) := by
    refine fun sources => steps_reused (H := Tree.SeparatorsClear) Tree.everywhere_empty
      Tree.SeparatorsClear.merge (fun h name found hfound => ?_) fun base => ?_
    · obtain ⟨t, ht, hlookup⟩ := List.exists_of_findSome?_eq_some hfound
      exact Tree.Everywhere.lookup (h.2.2 sources rfl t ht) hlookup
    · exact ((hresolve base location).mono (fun h => h.2) fun _ h => h).keep.mono id
        fun _ h => hflatten h.1.1.1 h.2
  rw [← hincludes]
  exact steps_substitute (fun h => h.1) clearSources_rebindable
    (fun _ _ hes hbase => clearEntries_underlay hes hbase _) hincluded
    (fun _ _ hes hbase => clearEntries_underlay hes hbase _) hreused substitutionLimit es

theorem steps_resolveMapping {resolve : Tree → String → Resolving InWorld Tree}
    (hresolve : ∀ base location, Steps S K (ClearSources reuse) base.SeparatorsClear
      (resolve base location) fun t => t.Lacks (carriedOut true reuse))
    (room : Nat) (es : Entries) (location : String) (position : Position) :
    Steps S K (ClearSources reuse) (Tree.map es).SeparatorsClear
      (s.resolveMapping resolve room es location position)
      fun t => t.Lacks (carriedOut true reuse) := by
  induction room generalizing es location position with
  | zero => exact Steps.fail
  | succ room ih =>
    unfold resolveMapping
    dsimp only
    refine Steps.orFail.bind fun f => ?_
    refine Steps.bind ((steps_substitute_clear hK hincludes hload hresolve f location position
      (Flattening.take es).1).mono (fun h => ?_) fun _ h => h) fun es' => ?_
    · exact ⟨Flattening.isClear h.1 h.2, Flattening.take_separatorsClear h.1 h.2,
        Flattening.take_without h.2⟩
    have hvalues := steps_resolveEntries (R := fun _ t => t.Lacks (carriedOut true reuse))
      (fun e (_ : e ∈ es') => steps_resolveTree lacks_follows (fun _ => trivial)
        (fun es location position _ => ih es location position) e.2) location position
    refine Steps.bind (hvalues.mono (fun h => ?_) fun _ h => h) fun es'' => Steps.pure fun h => ?_
    · exact fun e he => (Tree.everywhere_map.1 h.2.1.1 e he).2
    · exact lacks_of_entries (without_of_settled h.1.2.1.2 h.1.2.2) h.2

theorem steps_resolveReused (levels : Nat) (base : Tree) (location : String) :
    Steps S K (ClearSources reuse) base.SeparatorsClear (s.resolveReused levels base location)
      fun t => t.Lacks (carriedOut true reuse) := by
  induction levels generalizing base location with
  | zero => exact Steps.fail
  | succ levels ih =>
    exact steps_resolveTree lacks_follows (fun _ => trivial) (fun es location position _ =>
      steps_resolveMapping hK hincludes hload ih _ es location position) base location none

theorem steps_resolveDocument (location : String) (position : Position) (document : Tree) :
    Steps S K (ClearSources reuse) document.SeparatorsClear
      (s.resolveDocument location position document) fun t => t.Lacks (carriedOut true reuse) :=
  steps_resolveTree lacks_follows (fun _ => trivial) (fun es location position _ =>
    steps_resolveMapping hK hincludes hload (steps_resolveReused hK hincludes hload
      substitutionLimit) _ es location position) document location position

end Resolving

end Scope

/-! ## Files -/

namespace Settings

/-- What a load with these options keeps in the cache: for an included file a tree with `_use` at
most, for the whole load a tree without directives. -/
def KeptFor (s : Settings) (o : LoadOptions) (keys : List String) (tree : Tree) : Prop :=
  (keys = s.keys "included" o.pathField → tree.Lacks (carriedOut true false)) ∧
    (s.loadKeys? o = some keys → tree.Lacks all)

/-- In the worlds that satisfy `K`, the cache answers the requests of a load only with what such a
load keeps there, and keeping that leads to such a world again. -/
structure KeepsCache (s : Settings) (o : LoadOptions) (K : World → Prop) : Prop
    extends Unnoted K where
  answered : ∀ {keys path w answer w'},
    outcome (cached (s.storeFor? (some keys)) [path]) w = (.ok answer, w') → K w →
      K w' ∧ ∀ hit ∈ answer, s.KeptFor o keys hit.1
  kept : ∀ {keys path what tree ledger w r w'},
    outcome (keep (s.storeFor? (some keys)) [path] what tree ledger) w = (.ok r, w') →
      s.KeptFor o keys tree → K w → K w'

variable {s : Settings} {o : LoadOptions} {S : FilePath → Prop} {K : World → Prop} {P : Prop}

/-- The keys of an included file are not those of a load. -/
theorem loadKeys?_ne_included : s.loadKeys? o ≠ some (s.keys "included" o.pathField) := by
  unfold loadKeys?
  split
  · simp
  · cases o.includes <;> cases o.selfReferences <;>
      simp only [keys, List.cons_append, List.nil_append, List.append_assoc, Option.some_inj,
        List.cons.injEq, ne_eq, not_and] <;> exact fun h => absurd h (by decide +kernel)

theorem keptFor_included {tree : Tree} :
    s.KeptFor o (s.keys "included" o.pathField) tree ↔ tree.Lacks (carriedOut true false) :=
  ⟨fun h => h.1 rfl, fun h => ⟨fun _ => h, fun hkeys => absurd hkeys loadKeys?_ne_included⟩⟩

theorem keptFor_load {keys : List String} (hkeys : s.loadKeys? o = some keys) {tree : Tree} :
    s.KeptFor o keys tree ↔ tree.Lacks all :=
  ⟨fun h => h.2 hkeys, fun h => ⟨fun hincluded =>
    absurd (hincluded ▸ hkeys) loadKeys?_ne_included, fun _ => h⟩⟩

/-- Without a cache nothing is asked of the worlds but to disregard notes. -/
theorem keepsCache_of_none (hs : s.cache = none) (hK : Unnoted K) : s.KeepsCache o K where
  toUnnoted := hK
  answered hrun hKw := by
    rw [storeFor?, store?, hs] at hrun
    cases hrun
    exact ⟨hKw, by simp⟩
  kept hrun _ hKw := by
    rw [storeFor?, store?, hs] at hrun
    cases hrun
    exact hKw

theorem lacks_withPath {names : List String} {field : Option String} {path : FilePath} {t : Tree}
    (hfield : ∀ f ∈ field, f ∉ names) (ht : t.Lacks names) :
    (withPath field path t).Lacks names := by
  unfold withPath
  split
  · split
    next f =>
      refine Tree.Everywhere.put (Tree.layered_lacks names) ht (fun name hname hkey => ?_) trivial
      rw [← Tree.str.inj hkey] at hname
      exact hfield f rfl hname
    · exact ht
  · exact ht

/-- A document is resolved to a tree without directives, if all it includes is. -/
theorem fulfils_resolveFor (hK : Unnoted K) {load : FilePath → List FilePath → String →
      ExceptT Error InWorld (Tree × Ledger)}
    (hload : ∀ file chain location, Fulfils S K True (load file chain location) fun r =>
      r.1.Lacks (carriedOut true false))
    {request : Request} (hincludes : request.includes = true)
    (hsources : ∀ list ∈ request.sources, ∀ t ∈ list, t.SeparatorsClear) (document : Tree) :
    Fulfils S K document.SeparatorsClear (s.resolveFor load request document) fun r =>
      r.1.Lacks (carriedOut true request.sources.isSome) := by
  refine Scope.fulfils_resolveFor hK (J := ClearSources request.sources.isSome)
    (fun room => Scope.steps_resolveDocument hK hincludes hload _ _ document)
    fun hdocument => ⟨by simp [Request.sourcesWith], fun list hlist t ht => ?_⟩
  obtain ⟨outside, houtside, rfl⟩ := Option.map_eq_some_iff.1 hlist
  split at ht
  · rcases List.mem_cons.1 ht with rfl | ht
    · exact hdocument
    · exact hsources outside houtside t ht
  · exact hsources outside houtside t ht

/-- A document that is read in a world that satisfies `K` has clear separators. -/
def ReadsClear (K : World → Prop) (path : FilePath) : Prop :=
  ∀ {w}, K w → ∀ t ∈ (w.document path).1, t.SeparatorsClear

theorem fulfils_document (hK : Unnoted K) (path : FilePath) :
    Fulfils (ReadsClear K) K P (Host.document path) fun r => ∀ t ∈ r, t.SeparatorsClear := by
  intro w r w' hrun
  cases hrun
  exact ⟨[path], rfl, fun _ hS hKw => ⟨hS path (by simp) hKw, hK.parsed hKw _⟩⟩

theorem storeFor?_none : s.storeFor? none = none := by
  unfold storeFor?
  cases s.store? <;> rfl

/-- The cache answers a request with a tree without directives. -/
theorem fulfils_cached (hK : s.KeepsCache o K) {names : List String} {path : FilePath}
    {cacheKeys : Option (List String)}
    (hkeys : ∀ keys ∈ cacheKeys, ∀ tree, s.KeptFor o keys tree ↔ tree.Lacks names) :
    Fulfils S K P (cached (s.storeFor? cacheKeys) [path]) fun answer =>
      ∀ hit ∈ answer, hit.1.Lacks names := by
  refine Fulfils.of_unread (leaves_cached sameParsed_writing _ _).related
    fun w answer w' hrun _ hKw => ?_
  cases cacheKeys with
  | none =>
    rw [storeFor?_none] at hrun
    cases hrun
    exact ⟨by simp, hKw⟩
  | some keys =>
    obtain ⟨hKw', hanswer⟩ := hK.answered hrun hKw
    exact ⟨fun hit hhit => (hkeys keys rfl hit.1).1 (hanswer hit hhit), hKw'⟩

/-- A tree without directives can be kept for a request. -/
theorem fulfils_keep (hK : s.KeepsCache o K) {names : List String} {path : FilePath}
    {cacheKeys : Option (List String)}
    (hkeys : ∀ keys ∈ cacheKeys, ∀ tree, s.KeptFor o keys tree ↔ tree.Lacks names) (what : String)
    (tree : Tree) (ledger : Ledger) :
    Fulfils S K (tree.Lacks names) (keep (s.storeFor? cacheKeys) [path] what tree ledger) fun r =>
      r.1.Lacks names := by
  refine Fulfils.of_unread (leaves_keep sameParsed_writing _ _ _ _ _).related
    fun w r w' hrun htree hKw => ⟨by rwa [keep_fst hrun], ?_⟩
  cases cacheKeys with
  | none =>
    rw [storeFor?_none] at hrun
    cases hrun
    exact hKw
  | some keys => exact hK.kept hrun ((hkeys keys rfl tree).2 htree) hKw

/-- A file is loaded as a tree without directives. The induction is on how many files may include
one another. -/
theorem fulfils_loadFile (hK : s.KeepsCache o K) (hfield : ∀ f ∈ o.pathField, f ∉ all)
    (budget : Nat) {request : Request} (hincludes : request.includes = true)
    (hsources : ∀ list ∈ request.sources, ∀ t ∈ list, t.SeparatorsClear)
    (hpath : request.pathField = o.pathField)
    (hkeys : ∀ keys ∈ request.cacheKeys, ∀ tree,
      s.KeptFor o keys tree ↔ tree.Lacks (carriedOut true request.sources.isSome)) :
    Fulfils (ReadsClear K) K True (s.loadFile budget request) fun r =>
      r.1.Lacks (carriedOut true request.sources.isSome) := by
  induction budget generalizing request with
  | zero => exact Fulfils.throw _
  | succ budget ih =>
    unfold loadFile
    dsimp only
    refine (fulfils_cached hK hkeys).bind fun answer => ?_
    split
    next hit => exact Fulfils.pure fun h => h.2 hit rfl
    · refine (fulfils_document hK.toUnnoted request.path).bind fun document => ?_
      split
      · exact Fulfils.throw _
      next document =>
        refine (Fulfils.of_noting hK.toUnnoted (leaves_add · _ _)).bind fun ledger => ?_
        have hincluded : ∀ path chain location, Fulfils (ReadsClear K) K True
            (s.loadFile budget (s.includedRequest request.pathField path chain location))
            fun r => r.1.Lacks (carriedOut true false) := by
          intro path chain location
          refine ih rfl (by simp [includedRequest]) hpath fun keys hkeys tree => ?_
          cases hkeys
          rw [hpath]
          exact keptFor_included
        refine Fulfils.bind ((fulfils_resolveFor hK.toUnnoted hincluded hincludes hsources
          document).mono (fun h => h.1.2 _ rfl) fun _ h => h) fun r => ?_
        refine (fulfils_keep hK hkeys _ _ _).mono (fun h => lacks_withPath ?_ h.2) fun _ h => h
        intro f hf hmem
        exact hfield f (hpath ▸ hf) (mem_all_of_carriedOut hmem)

/-- Loading a file gives a tree without directives. -/
theorem fulfils_load (hK : s.KeepsCache o K) (hincludes : o.includes = true)
    (hfield : ∀ f ∈ o.pathField, f ∉ all)
    (hsources : ∀ list ∈ o.sources, ∀ t ∈ list, t.SeparatorsClear) (path : FilePath) :
    Fulfils (ReadsClear K) K True (s.load path o) fun r => r.1.Lacks all := by
  unfold load
  refine (Fulfils.of_noting hK.toUnnoted (leaves_normalize · path)).bind fun path => ?_
  refine (Fulfils.of_noting hK.toUnnoted leaves_fileBound).bind fun bound => ?_
  refine (fulfils_loadFile hK hfield _ hincludes ?_ rfl ?_).mono (fun _ => trivial) fun _ h => h
  · exact LoadOptions.forall_request_sources hsources _ _
  · exact fun keys hkeys tree => keptFor_load hkeys

/-- Resolving a document gives a tree without directives. -/
theorem fulfils_resolve (hK : s.KeepsCache o K) (hincludes : o.includes = true)
    (hfield : ∀ f ∈ o.pathField, f ∉ all)
    (hsources : ∀ list ∈ o.sources, ∀ t ∈ list, t.SeparatorsClear) (document : Tree)
    (owner : FilePath) :
    Fulfils (ReadsClear K) K document.SeparatorsClear (s.resolve document owner o) fun r =>
      r.1.Lacks all := by
  unfold resolve
  refine (Fulfils.of_noting hK.toUnnoted (leaves_normalize · owner)).bind fun owner => ?_
  refine (Fulfils.of_noting hK.toUnnoted leaves_fileBound).bind fun budget => ?_
  refine (fulfils_resolveFor hK.toUnnoted (fun path chain location => ?_) hincludes ?_
    document).mono (fun h => h.1.1) fun _ h => h
  · refine fulfils_loadFile hK hfield budget rfl (by simp [includedRequest]) rfl
      fun keys hkeys tree => ?_
    cases hkeys
    exact keptFor_included
  · exact LoadOptions.forall_request_sources hsources _ _

/-! ## Resolving again -/

/-- Resolving a tree without directives changes nothing and consults nothing. -/
theorem resolve_of_lacks {t : Tree} (ht : t.Lacks all) (owner : FilePath) (w : World) :
    outcome (s.resolve t owner o) w = (.ok (t, Ledger.empty), w) := by
  simp only [resolve, resolveFor, Scope.resolveDocument, Scope.resolveTree_of_lacks ht]
  rfl

end Settings

/-! ## The result of a load -/

/-- A world with two files. The first is flattened where it is included, the second reuses a section
of the document that includes it. -/
def twoFiles : World :=
  .holding [(["a.yml"], .file "_flatten_sep: '-'\nx: 1\n".toUTF8 ⟨0⟩),
    (["b.yml"], .file "y:\n  _use: lib\n".toUTF8 ⟨0⟩)]

/-- A document that includes both files. -/
def includingBoth : Tree :=
  .map [(.str "n", .map [(.str "_include", .seq [.str "a.yml", .str "b.yml"]),
    (.str "_flatten", .int 1)]), (.str "lib", .map [(.str "z", .int 2)])]

/-- A world with a file and, under the key of its load, an entry that no load has made. -/
def foreignEntry : World :=
  .holding [(["a.yml"], .file "x: 1\n".toUTF8 ⟨0⟩),
    (["cache"], .directory ⟨0⟩),
    (["cache", "64b0e2b0fe803d7a7a88f5b84bb867ceab40514be5dacdbaf849ee311443ef1b.yml"],
      .file ("engine: recipe-config 0.4.0\ninputs: []\ntree:\n  _use: x\n" ++
        "deps:\n  deps: \x7b\x7d\n  failed: \x7b\x7d\n").toUTF8 ⟨0⟩)]

end LayeredConfig
