import LayeredConfig.Proofs.Alike
import LayeredConfig.Proofs.Path.Respelling
import Mathlib.Data.List.Nodup
import Mathlib.Data.List.Perm.Subperm

/-!
# Chains of includers

A file is included by another, which is included by a third, and so on up to the file that is
loaded. In every request that a load makes, this chain names different files (`Request.Chained`), so
it is no longer than there are files, and the bound on how many files may include one another is
never met.

That this holds of every request, also of those that fail, is said by a loader that refuses requests
(`loadFileIf`): one that refuses those with any other chain is the loader itself.
-/

namespace LayeredConfig

/-! ## Files by their places -/

namespace World

variable {w w' : World} {p : FilePath}

/-- There is a file at the place the path names. -/
def hasFileAt (w : World) (p : FilePath) : Bool :=
  (w.node? (w.placeOf p)).any fun node => !node.isDirectory

/-- How many files there are. -/
def fileCount (w : World) : Nat := (w.nodes.filter fun e => !e.2.isDirectory).length

theorem hasFileAt_eq_of_sameFiles (h : SameFiles w w') (p : FilePath) :
    w'.hasFileAt p = w.hasFileAt p := by
  rw [hasFileAt, hasFileAt, placeOf, placeOf, h.directory, node?, node?, h.nodes, h.directoryTime]

/-- A file that is found under a path is at the place that the normal form of the path names. -/
theorem hasFileAt_normalize (h : w.hasFile p = true) :
    w.hasFileAt (FilePath.normalize w.directory p) = true := by
  obtain ⟨place, content, t, hlocate⟩ := hasFile_iff.1 h
  obtain ⟨-, hplain, hnode⟩ := reached_of_locate hlocate
  have hnormal : FilePath.normalize w.directory p = FilePath.ofNames place := by
    rw [placeOf_of_locate hlocate]
    rfl
  rw [hasFileAt, hnormal, placeOf_ofNames hplain, hnode]
  rfl

/-- A path in normal form is told by the place it names. -/
theorem ofNames_placeOf (h : p.IsNormal) : FilePath.ofNames (w.placeOf p) = p := by
  obtain ⟨names, hnames, rfl⟩ := h
  rw [placeOf_ofNames hnames]

theorem mem_files_of_hasFileAt (h : w.hasFileAt p = true) :
    w.placeOf p ∈ (w.nodes.filter fun e => !e.2.isDirectory).map Prod.fst := by
  rw [hasFileAt, node?] at h
  split at h
  · cases h
  · cases hfind : w.nodes.find? fun e => e.1 == w.placeOf p with
    | none =>
      rw [hfind] at h
      cases h
    | some e =>
      rw [hfind] at h
      have hplace := List.find?_some hfind
      exact List.mem_map.2
        ⟨e, List.mem_filter.2 ⟨List.mem_of_find?_eq_some hfind, h⟩, eq_of_beq hplace⟩

/-- Different paths in normal form, at whose places there are files, are no more than the files. -/
theorem length_le_fileCount {files : List FilePath} (hnodup : files.Nodup)
    (hnormal : ∀ f ∈ files, f.IsNormal) (hfiles : ∀ f ∈ files, w.hasFileAt f = true) :
    files.length ≤ w.fileCount := by
  have hplaces : (files.map w.placeOf).Nodup := by
    refine hnodup.map_on fun f hf g hg heq => ?_
    rw [← ofNames_placeOf (w := w) (hnormal f hf), heq, ofNames_placeOf (hnormal g hg)]
  have hsub : files.map w.placeOf ⊆ (w.nodes.filter fun e => !e.2.isDirectory).map Prod.fst := by
    intro place hplace
    obtain ⟨f, hf, rfl⟩ := List.mem_map.1 hplace
    exact mem_files_of_hasFileAt (hfiles f hf)
  simpa [fileCount] using (List.subperm_of_subset hplaces hsub).length_le

theorem fileCount_le (w : World) : w.fileCount ≤ w.nodes.length := List.length_filter_le _ _

end World

/-! ## Computations that end alike -/

/-- In worlds with the property both computations end alike, and keep it. -/
def EndAlike {α : Type} (K : World → Prop) (x y : ExceptT Error InWorld α) : Prop :=
  ∀ w, K w → outcome y w = outcome x w ∧ K (outcome x w).2

namespace EndAlike

variable {α β : Type} {K : World → Prop} {x y : ExceptT Error InWorld α}

theorem throw (e : Error) :
    EndAlike K (throw e : ExceptT Error InWorld α) (MonadExcept.throw e) :=
  fun _ hw => ⟨rfl, hw⟩

theorem bind {g g' : α → ExceptT Error InWorld β} (h : EndAlike K x y)
    (hg : ∀ a, EndAlike K (g a) (g' a)) : EndAlike K (x >>= g) (y >>= g') := by
  intro w hw
  obtain ⟨hends, hkept⟩ := h w hw
  rw [outcome_bind, outcome_bind, hends]
  rcases hx : outcome x w with ⟨e | a, w₁⟩
  · rw [hx] at hkept
    exact ⟨rfl, hkept⟩
  · rw [hx] at hkept
    exact hg a w₁ hkept

theorem same (hx : ∀ w, K w → K (outcome x w).2) : EndAlike K x x :=
  fun w hw => ⟨rfl, hx w hw⟩

theorem pure (a : α) : EndAlike K (pure a) (pure a) := same fun _ hw => hw

/-- A computation that only takes notes. -/
theorem note (hK : Unnoted K) (h : ∀ {R}, Noting R → Leaves R x) : EndAlike K x x := by
  refine same fun w hw => ?_
  obtain ⟨a, w', hrun, -, hkept⟩ := h hK.noting w
  rw [hrun]
  exact hkept hw

end EndAlike

/-! ## What a resolution asks for -/

namespace Scope

/-- Nobody hears what is met in included files. -/
abbrev unheard : FilePath → List FilePath → String → World → List Meeting := fun _ _ _ _ => []

variable {c : Scope InWorld} {w₀ : World}
  {load : FilePath → List FilePath → String → ExceptT Error InWorld (Tree × Ledger)}
  (hload : ∀ file location, file ∉ c.chain → file.IsNormal → w₀.hasFileAt file = true →
    EndAlike (SameFiles w₀) (c.load file c.chain location) (load file c.chain location))
include hload

/-- A file that is in the chain is not loaded, so it does not matter how it would be. -/
theorem alike_include_of_new {file : FilePath} (hnormal : file.IsNormal)
    (hfile : w₀.hasFileAt file = true) (f : Flattening) (location : String) (merged : Tree)
    (p : Progress) :
    Alike (SameFiles w₀) (fun _ => True) ((c.tellInclude unheard f location merged file).run p)
      (((c.told c.settings load 0).tellInclude unheard f location merged file).run p) := by
  by_cases hchain : file ∈ c.chain
  · intro w hw _
    have hfails : ∀ c' : Scope InWorld, c'.chain = c.chain → c'.owner = c.owner →
        outcome ((c'.includeFile f location merged file).run p) w =
          (.error (.unresolved c.owner location (.cycle (c.chain ++ [file]))), w) := by
      intro c' hsame howner
      rw [includeFile_run, if_pos (by simpa [hsame] using hchain), hsame, howner]
    refine ⟨(hfails (c.told c.settings load 0) rfl rfl).trans (hfails c rfl rfl).symm, rfl, ?_⟩
    exact (hfails c rfl rfl).symm ▸ hw
  · refine alike_include (fun w hw _ => ?_) f merged p
    obtain ⟨hends, hkept⟩ := hload file location hchain hnormal hfile w hw
    exact ⟨hends, rfl, hkept⟩

theorem alike_all_of_new (f : Flattening) (location : String) (merged : Tree) (raws : List String)
    (p : Progress) :
    Alike (SameFiles w₀) (fun _ => True) ((c.tellAll unheard f location merged raws).run p)
      (((c.told c.settings load 0).tellAll unheard f location merged raws).run p) := by
  induction raws generalizing merged p with
  | nil => exact Alike.pure (merged, p)
  | cons raw rest ih =>
    unfold tellAll
    refine Alike.bind (alike_still (Still.orFail _) p) fun r => ?_
    refine Alike.bind_of_ok (alike_find (SameFiles.unnoted w₀) (fun _ _ _ => rfl) raw r.1 location
      r.2) fun found w w₁ hw _ hfind => ?_
    obtain ⟨found, p₁⟩ := found
    cases found with
    | none => exact ih merged p₁
    | some file =>
      obtain ⟨place, hplace, rfl⟩ := Option.map_eq_some_iff.1 (found_of_find hfind).symm
      have hfile := World.hasFileAt_normalize (List.find?_some hplace)
      rw [World.hasFileAt_eq_of_sameFiles hw] at hfile
      refine Alike.bind (alike_include_of_new hload (FilePath.isNormal_normalize _ _) hfile f
        location merged p₁) fun r => ?_
      exact ih r.1 r.2

/-- Two ways to load files make no difference to the resolution of a document if they agree on files
that are there and not in the chain. -/
theorem resolveDocument_congr (location : String) (position : Position) (document : Tree)
    (p : Progress) : EndAlike (SameFiles w₀)
      ((c.resolveDocument location position document).run p)
      (((c.told c.settings load 0).resolveDocument location position document).run p) := by
  have hparallel : c.Parallel unheard c.settings load 0 unheard
      fun {_} x y => ∀ p, Alike (SameFiles w₀) (fun _ => True) (x.run p) (y.run p) := {
    bind := fun hx hf p => (hx p).bind fun r => hf r.1 r.2
    still := fun hx p => alike_still hx p
    all := fun f location merged raws p => alike_all_of_new hload f location merged raws p
    spent := fun h => absurd rfl h }
  intro w hw
  obtain ⟨hends, -, hkept⟩ := hparallel.document location position document p w hw
    fun _ _ => trivial
  have hplain : ∀ c' : Scope InWorld,
      ((c'.tellDocument unheard location position document).run p).run =
        (c'.resolveDocument location position document).run p := fun c' =>
    congrFun (c'.tellDocument_plain location position document) p
  rw [hplain, hplain] at hends
  rw [hplain] at hkept
  exact ⟨hends, hkept⟩

end Scope

/-! ## Requests and their chains -/

/-- The chain of a request leads through different files to the file that is requested; all but the
first are there. -/
structure Request.Chained (w : World) (request : Request) : Prop where
  last : request.chain.getLast? = some request.path
  nodup : request.chain.Nodup
  normal : ∀ f ∈ request.chain, f.IsNormal
  there : ∀ f ∈ request.chain.tail, w.hasFileAt f = true

namespace Request.Chained

variable {w : World} {request : Request}

/-- What is loaded first has nobody before it. -/
theorem first (w : World) {o : LoadOptions} {path : FilePath} (hpath : path.IsNormal)
    (keys : Option (List String)) : (o.request path keys).Chained w where
  last := rfl
  nodup := List.nodup_singleton path
  normal := by simpa [LoadOptions.request] using hpath
  there := by simp [LoadOptions.request]

theorem chain_ne_nil (h : request.Chained w) : request.chain ≠ [] := by
  intro hnil
  have hlast := h.last
  rw [hnil] at hlast
  cases hlast

/-- A file that is not in the chain may be included. -/
theorem included (h : request.Chained w) (s : Settings) {file : FilePath}
    (hfile : file ∉ request.chain) (hnormal : file.IsNormal) (hthere : w.hasFileAt file = true)
    (field : Option String) (location : String) :
    (s.includedRequest field file request.chain location).Chained w where
  last := List.getLast?_concat
  nodup := List.nodup_append.2 ⟨h.nodup, List.nodup_singleton file, by
    intro a ha b hb heq
    rw [List.mem_singleton] at hb
    exact hfile (hb ▸ heq ▸ ha)⟩
  normal := List.forall_mem_append.2 ⟨h.normal, by simpa using hnormal⟩
  there := by
    rw [Settings.includedRequest, List.tail_append_of_ne_nil h.chain_ne_nil]
    exact List.forall_mem_append.2 ⟨h.there, by simpa using hthere⟩

/-- Files include one another only as deep as there are files. -/
theorem length_le (h : request.Chained w) : request.chain.length ≤ w.fileCount + 1 := by
  have htail : request.chain.tail.length ≤ w.fileCount :=
    World.length_le_fileCount (h.nodup.sublist (List.tail_sublist _))
      (fun f hf => h.normal f (List.mem_of_mem_tail hf)) h.there
  rw [List.length_tail] at htail
  omega

end Request.Chained

/-! ## Refusing requests -/

namespace Settings

/-- Load a file, and the files it includes by `load`. -/
def loadFileBy (s : Settings) (load : Request → ExceptT Error InWorld (Tree × Ledger))
    (request : Request) : ExceptT Error InWorld (Tree × Ledger) := do
  let store := s.storeFor? request.cacheKeys
  match ← cached store [request.path] with
  | some hit => return hit
  | none =>
    match ← Host.document request.path with
    | none => throw (.unreadable request.path)
    | some document =>
      let ledger ← Ledger.empty.add request.path
      let (tree, consulted) ← s.resolveFor
        (fun path chain location =>
          load (s.includedRequest request.pathField path chain location))
        request document
      keep store [request.path] request.path.text
        (withPath request.pathField request.path tree) (ledger.update consulted)

theorem loadFile_succ (s : Settings) (budget : Nat) (request : Request) :
    s.loadFile (budget + 1) request = s.loadFileBy (s.loadFile budget) request := rfl

section Refusing

variable (s : Settings) (test : Request → Prop) [DecidablePred test] (refusal : Error)

/-- Load a file, but refuse every request that fails the test. -/
def loadFileIf : (budget : Nat) → Request → ExceptT Error InWorld (Tree × Ledger)
  | 0, request =>
    if test request then throw (.unresolved request.path request.location .unbounded)
    else throw refusal
  | budget + 1, request =>
    if test request then s.loadFileBy (loadFileIf budget) request else throw refusal

/-- Load one file, but refuse every request that fails the test. -/
def loadIf (path : FilePath) (o : LoadOptions) : ExceptT Error InWorld (Tree × Ledger) := do
  let path ← Host.normalize path
  s.loadFileIf test refusal ((← Host.fileBound) + 1) (o.request path (s.loadKeys? o))

end Refusing

section Chained

variable {s : Settings} {w₀ : World}

/-- Resolving for a request asks for files that are there and not in its chain. -/
theorem resolveFor_congr {load load' : FilePath → List FilePath → String →
      ExceptT Error InWorld (Tree × Ledger)} {request : Request}
    (hload : ∀ file location, file ∉ request.chain → file.IsNormal → w₀.hasFileAt file = true →
      EndAlike (SameFiles w₀) (load file request.chain location)
        (load' file request.chain location)) (document : Tree) :
    EndAlike (SameFiles w₀) (s.resolveFor load request document)
      (s.resolveFor load' request document) := by
  unfold resolveFor
  refine EndAlike.bind (.same fun w hw => hw) fun room => ?_
  exact EndAlike.bind (Scope.resolveDocument_congr (c := s.scope load request room) hload _ _ _ _)
    fun r => .pure _

theorem loadFileBy_congr (hs : s.cache = none) {load load' : Request →
      ExceptT Error InWorld (Tree × Ledger)} {request : Request}
    (hload : ∀ file location, file ∉ request.chain → file.IsNormal → w₀.hasFileAt file = true →
      EndAlike (SameFiles w₀)
        (load (s.includedRequest request.pathField file request.chain location))
        (load' (s.includedRequest request.pathField file request.chain location))) :
    EndAlike (SameFiles w₀) (s.loadFileBy load request) (s.loadFileBy load' request) := by
  unfold loadFileBy
  rw [storeFor?_eq_none (.inl hs)]
  refine EndAlike.bind (.pure none) fun hit => ?_
  cases hit with
  | some hit => exact .pure hit
  | none =>
    refine EndAlike.bind (.same fun w hw => (SameFiles.unnoted w₀).parsed hw _) fun document => ?_
    cases document with
    | none => exact .throw _
    | some document =>
      refine EndAlike.bind (.note (SameFiles.unnoted w₀) (leaves_add · _ _)) fun ledger => ?_
      exact EndAlike.bind (resolveFor_congr hload document) fun r => .pure _

/-- A loader that refuses only requests with other chains refuses none. -/
theorem loadFileIf_eq (hs : s.cache = none) {test : Request → Prop} [DecidablePred test]
    (htest : ∀ request : Request, request.Chained w₀ → test request) (refusal : Error)
    (budget : Nat) {request : Request} (h : request.Chained w₀) :
    EndAlike (SameFiles w₀) (s.loadFile budget request)
      (s.loadFileIf test refusal budget request) := by
  induction budget generalizing request with
  | zero =>
    rw [loadFileIf, if_pos (htest request h)]
    exact .throw _
  | succ budget ih =>
    rw [loadFileIf, if_pos (htest request h), loadFile_succ]
    exact loadFileBy_congr hs fun file location hfile hnormal hthere =>
      ih (h.included s hfile hnormal hthere request.pathField location)

theorem loadIf_run (test : Request → Prop) [DecidablePred test] (refusal : Error) (path : FilePath)
    (o : LoadOptions) (w : World) :
    outcome (s.loadIf test refusal path o) w =
      outcome (s.loadFileIf test refusal (w.nodes.length + 1)
        (o.request (FilePath.normalize w.directory path) (s.loadKeys? o))) w := by
  have hnormalize : outcome (Host.normalize path : ExceptT Error InWorld _) w =
      (.ok (FilePath.normalize w.directory path), w) := rfl
  have hbound : outcome (Host.fileBound : ExceptT Error InWorld Nat) w =
      (.ok w.nodes.length, w) := rfl
  rw [loadIf, outcome_bind_of_ok hnormalize, outcome_bind_of_ok hbound]

/-- Whatever becomes of requests with other chains, it makes no difference to a load: it makes
none. -/
theorem loadIf_eq (hs : s.cache = none) {test : Request → Prop} [DecidablePred test] {w : World}
    (htest : ∀ request : Request, request.Chained w → test request) (refusal : Error)
    (path : FilePath) (o : LoadOptions) :
    outcome (s.loadIf test refusal path o) w = outcome (s.load path o) w := by
  rw [loadIf_run, load_run]
  have hfirst := Request.Chained.first w (o := o) (FilePath.isNormal_normalize w.directory path)
    (s.loadKeys? o)
  exact (loadFileIf_eq hs htest refusal (w.nodes.length + 1) hfirst w (.refl w)).1

end Chained

end Settings

end LayeredConfig
