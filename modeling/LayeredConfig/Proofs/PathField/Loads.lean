import LayeredConfig.Proofs.Assembly
import LayeredConfig.Proofs.OwnValues
import LayeredConfig.Proofs.PathField.Resolution

/-!
# Loads with and without the field

Without a cache, loads of a file with and without the field for its path are twins, if no document
mentions the field or asks for flattening: both have the same ledger, and the trees are the same but
for the field.
-/

namespace LayeredConfig

open Directive Tree

/-- The document a file holds. -/
def Node.document : Node → Option Tree
  | .file bytes _ => (String.fromUTF8? bytes).bind fun text => (Document.read text).toOption
  | .directory _ => none

/-- No document mentions the key or asks for flattening. -/
def World.Silent (f : String) (w : World) : Prop :=
  ∀ e ∈ w.nodes, ∀ t ∈ e.2.document, t.mentions f = false ∧ t.Lacks [flattenKey]

instance (f : String) (w : World) : Decidable (w.Silent f) :=
  inferInstanceAs (Decidable (∀ e ∈ w.nodes, ∀ t ∈ e.2.document,
    t.mentions f = false ∧ t.Lacks [flattenKey]))

theorem World.mem_nodes_of_document {w : World} {path : FilePath} {t : Tree}
    (h : (w.document path).1 = some t) : ∃ e ∈ w.nodes, e.2.document = some t := by
  unfold document content at h
  cases hlocate : w.locate path with
  | error fault =>
    rw [hlocate] at h
    cases h
  | ok found =>
    obtain ⟨place, node⟩ := found
    have hnode : node = w.node? place := node_of_walk (walk_of_locate hlocate).2
    rw [hlocate] at h
    cases node with
    | none => cases h
    | some node =>
      cases node with
      | directory time => cases h
      | file bytes time =>
        rw [node?] at hnode
        split at hnode
        · cases hnode
        · obtain ⟨e, hfind, he⟩ := Option.map_eq_some_iff.1 hnode.symm
          refine ⟨e, List.mem_of_find?_eq_some hfind, ?_⟩
          rw [he]
          exact h

namespace Settings

variable {s : Settings} {f : String} {w₀ : World}

theorem strips_withPath {t t' : Tree} (hf : f ∉ all) (h : Strips f t t') (path : FilePath) :
    Strips f (withPath (some f) path t) t' := by
  cases t with
  | map es =>
    constructor
    · rw [withPath, strip_map, Entries.strip_put_self, h.strip, strip_map]
    · refine Everywhere.put (layered_carries f) h.carries ⟨fun _ => ⟨_, rfl⟩, fun _ => rfl, ?_⟩
        trivial
      rintro ⟨⟩
      exact hf (by simp [all])
  | _ => exact h

/-- The room there is for directives is as large as the files are many. -/
theorem twin_nestingRoom : Twin (SameFiles w₀)
    (fun room room' => room = Yaml.depthLimit * (w₀.nodes.length + 1) ∧ room' = room)
    (nestingRoom : ExceptT Error InWorld Nat) nestingRoom :=
  fun w hw => .inl ⟨_, _, w, rfl, rfl, hw, by rw [← hw.nodes], rfl⟩

theorem twin_document (hw₀ : w₀.Silent f) (path : FilePath) : Twin (SameFiles w₀)
    (fun d d' => d = d' ∧ ∀ t ∈ d, Strips f t t ∧
      ∀ pulled, t.Within pulled (pulled + Yaml.depthLimit))
    (Host.document path) (Host.document path) := by
  intro w hw
  refine .inl ⟨(w.document path).1, _, _, rfl, rfl, (SameFiles.unnoted w₀).parsed hw _, rfl,
    fun t ht => ?_⟩
  rw [hw.document_eq] at ht
  obtain ⟨text, hread⟩ := read_of_document (Option.mem_def.1 ht)
  obtain ⟨e, he, hdocument⟩ := World.mem_nodes_of_document (Option.mem_def.1 ht)
  obtain ⟨hmentions, hflat⟩ := hw₀ e he t hdocument
  exact ⟨.of_mentions hmentions hflat, fun pulled => Document.read_within hread⟩

/-- Sections are looked up in the document itself and nowhere else, or not at all. -/
structure LooksInside (request : Request) (reuse : Bool) : Prop where
  sources : request.sources = if reuse then some [] else none
  self : reuse = true → request.selfReferences = true

theorem LooksInside.included (field : Option String) (path : FilePath) (chain : List FilePath)
    (location : String) : LooksInside (s.includedRequest field path chain location) false :=
  ⟨rfl, by simp⟩

theorem LooksInside.request {o : LoadOptions} (hsources : o.sources = none)
    (hself : o.selfReferences = true) (path : FilePath) (keys : Option (List String)) :
    LooksInside (o.request path keys) true :=
  ⟨by simp [LoadOptions.request, hsources], fun _ => hself⟩

theorem spares_position (request : Request) (f : String) : request.position.Spares f := by
  unfold Request.position
  split
  · intro path hpath
    cases hpath
    exact List.not_mem_nil
  · intro path hpath
    cases hpath

theorem LooksInside.stripsSources {request : Request} {reuse : Bool}
    (h : LooksInside request reuse) {t : Tree} (ht : Strips f t t) :
    StripsSources f reuse (request.sourcesWith t) (request.sourcesWith t) := by
  unfold Request.sourcesWith
  rw [h.sources]
  cases reuse with
  | false => exact ⟨rfl, rfl⟩
  | true =>
    rw [h.self rfl]
    exact ⟨t, t, rfl, rfl, ht⟩

/-- The same request, to load files without the field for their paths. -/
def plainly (request : Request) (keys : Option (List String)) : Request :=
  { request with pathField := none, cacheKeys := keys }

/-- The resolutions of a document are twins if the loads of the files it includes are. -/
theorem twin_resolveFor (hf : f ∉ all) {reuse : Bool} {budget : Nat}
    (hbudget : budget ≤ w₀.nodes.length)
    {request : Request} (hincludes : request.includes = true) (hinside : LooksInside request reuse)
    {load load' : FilePath → List FilePath → String → ExceptT Error InWorld (Tree × Ledger)}
    (hload : ∀ file location, Twin (SameFiles w₀)
      (fun r r' => Included f (Yaml.depthLimit * budget) r.1 r'.1 ∧ r'.2 = r.2)
      (load file request.chain location) (load' file request.chain location))
    (keys : Option (List String)) {document : Tree} (hdocument : Strips f document document)
    (hwithin : ∀ pulled, document.Within pulled (pulled + Yaml.depthLimit)) :
    Twin (SameFiles w₀) (fun r r' => Outcome f reuse (Yaml.depthLimit * budget)
        (Yaml.depthLimit * (budget + 1)) r.1 r'.1 ∧ r'.2 = r.2)
      (s.resolveFor load request document)
      (s.resolveFor load' (plainly request keys) document) := by
  unfold resolveFor
  refine twin_nestingRoom.bind fun room _ hab => ?_
  obtain ⟨hroom, heq⟩ := hab
  subst heq hroom
  have hpulled : Yaml.depthLimit * budget ≤ Yaml.depthLimit * (w₀.nodes.length + 1) :=
    Nat.mul_le_mul_left _ (by omega)
  have hdepth : Yaml.depthLimit * (budget + 1) ≤ Yaml.depthLimit * (w₀.nodes.length + 1) :=
    Nat.mul_le_mul_left _ (by omega)
  have hposition : request.position.Spares f := spares_position request f
  refine (Scope.twin_resolveDocument
    (s := s.scope load request (Yaml.depthLimit * (w₀.nodes.length + 1))) (SameFiles.unnoted w₀) hf
    hincludes hload (fun _ => ⟨hpulled, hpulled⟩) hdocument (hwithin _) hdepth hdepth hposition _ _
    ⟨rfl, hinside.stripsSources hdocument⟩).bind fun r r' hr => .pure ⟨hr.1, hr.2.ledger⟩

/-- Files are loaded alike with and without the field, and what is included by them. The induction
is on how many files may include one another. -/
theorem twin_loadFile (hs : s.cache = none) (hf : f ∉ all) (hw₀ : w₀.Silent f) (budget : Nat)
    (hbudget : budget ≤ w₀.nodes.length + 1) {reuse : Bool} {request : Request}
    (hincludes : request.includes = true) (hinside : LooksInside request reuse)
    (hfield : request.pathField = some f) (keys : Option (List String)) :
    Twin (SameFiles w₀) (fun r r' => Outcome f reuse (Yaml.depthLimit * budget)
        (Yaml.depthLimit * budget) r.1 r'.1 ∧ r'.2 = r.2)
      (s.loadFile budget request) (s.loadFile budget (plainly request keys)) := by
  induction budget generalizing reuse request keys with
  | zero => exact .throw _ _
  | succ budget ih =>
    unfold loadFile
    dsimp only
    rw [storeFor?_eq_none (.inl hs), storeFor?_eq_none (.inl hs)]
    change Twin _ _ (pure none >>= _) (pure none >>= _)
    rw [pure_bind, pure_bind]
    refine (twin_document hw₀ request.path).bind fun document _ hab => ?_
    obtain ⟨heq, hdocument⟩ := hab
    subst heq
    cases document with
    | none => exact .throw _ _
    | some document =>
      obtain ⟨hstrips, hwithin⟩ := hdocument document rfl
      refine (Twin.note (SameFiles.unnoted w₀) (leaves_add · _ _)).bind fun ledger _ heq => ?_
      subst heq
      -- In included files `_use` is left, so the induction goes on without sources.
      have hload : ∀ file location, Twin (SameFiles w₀)
          (fun r r' => Included f (Yaml.depthLimit * budget) r.1 r'.1 ∧ r'.2 = r.2)
          (s.loadFile budget (s.includedRequest request.pathField file request.chain location))
          (s.loadFile budget (s.includedRequest none file request.chain location)) :=
        fun file location => ih (by omega) rfl (.included _ _ _ _) hfield
          (some (s.keys "included" none))
      refine (twin_resolveFor hf (by omega) hincludes hinside hload keys hstrips hwithin).bind
        fun r r' hr => ?_
      obtain ⟨t, l⟩ := r
      obtain ⟨t', l'⟩ := r'
      obtain ⟨hout, hl⟩ := hr
      obtain rfl : l' = l := hl
      have hplain : withPath (plainly request keys).pathField (plainly request keys).path t' = t' :=
        withPath_none _ _
      refine .pure ?_
      dsimp only
      rw [hplain, hfield]
      -- Nothing is left to be pulled in, so the bound may be that of the next file.
      have hlacks : t'.Lacks [includeKey] := hout.lacks.mono (by simp [carriedOut])
      exact ⟨⟨strips_withPath hf hout.toStrips _, hout.lacks,
        hout.within.of_lacks_include hlacks _⟩, rfl⟩

/-- A file is loaded alike with and without the field, if sections are looked up in the document
only. -/
theorem twin_load (hs : s.cache = none) (hf : f ∉ all) (hw₀ : w₀.Silent f) {o : LoadOptions}
    (hincludes : o.includes = true) (hself : o.selfReferences = true) (hsources : o.sources = none)
    (path : FilePath) :
    Twin (SameFiles w₀) (fun r r' => Strips f r.1 r'.1 ∧ r'.2 = r.2)
      (s.load path { o with pathField := some f }) (s.load path { o with pathField := none }) := by
  intro w hw
  rw [load_run, load_run, hw.nodes]
  generalize FilePath.normalize w.directory path = file
  have hinside : LooksInside (LoadOptions.request { o with pathField := some f } file
      (s.loadKeys? { o with pathField := some f })) true :=
    LooksInside.request (o := { o with pathField := some f }) hsources hself file _
  have htwin := twin_loadFile hs hf hw₀ _ (Nat.le_refl _) hincludes hinside rfl
    (s.loadKeys? { o with pathField := none })
  exact (htwin.mono fun r r' h => ⟨h.1.toStrips, h.2⟩) hw

/-- A load stores the path of the file in its tree, if this is a mapping. -/
theorem field_of_load (hs : s.cache = none) {o : LoadOptions} (hfield : o.pathField = some f)
    (hsources : o.sources = none) {path : FilePath} {w w' : World} {es : Entries} {l : Ledger}
    (h : outcome (s.load path o) w = (.ok (.map es, l), w')) :
    WellFormed (.map es) ∧
      Entries.get? es (.str f) = some (.str (FilePath.normalize w.directory path).text) := by
  rw [load_run] at h
  have hwell : Fulfils (fun _ => True) (fun _ => True) True (s.loadFile (w.nodes.length + 1)
      (o.request (FilePath.normalize w.directory path) (s.loadKeys? o))) fun r => r.1.WellFormed :=
    fulfils_loadFile_wellFormed _ (by simp [LoadOptions.request, hsources])
  refine ⟨hwell.post trivial h (fun _ _ => trivial) trivial, ?_⟩
  rcases loadFile_ok h with
    hcached | ⟨document, added, tree, consulted, w₁, w₂, w₃, -, -, -, -, hkeep⟩
  · rw [storeFor?_eq_none (.inl hs)] at hcached
    cases hcached
  · have hes : Tree.map es = withPath o.pathField (FilePath.normalize w.directory path) tree :=
      keep_fst hkeep
    rw [hfield] at hes
    cases tree with
    | map below =>
      obtain rfl : es = Entries.put below (.str f) _ := Tree.map.inj hes
      exact Entries.get?_put_str below f _
    | _ => cases hes

end Settings

end LayeredConfig
