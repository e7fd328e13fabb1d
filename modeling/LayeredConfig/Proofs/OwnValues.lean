import LayeredConfig.Proofs.Cache.Answer
import LayeredConfig.Proofs.Keeping
import LayeredConfig.Proofs.Resolution
import LayeredConfig.Proofs.Yaml

/-!
# Own values are kept

Whatever the directives in a document pull in, the values that the document has itself are found in
the result. What is carried through a resolution is that all trees are well-formed, and that a
mapping, while its directives are carried out, keeps what it had to begin with.
-/

namespace LayeredConfig

open Directive Tree

/-- Sections are looked up in well-formed trees, or not at all. -/
def WellFormedSources (reuse : Bool) (sources : Option (List Tree)) : Prop :=
  sources.isSome = reuse ∧ ∀ list ∈ sources, ∀ t ∈ list, t.WellFormed

namespace Scope

variable {S : FilePath → Prop} {K : World → Prop} {reuse : Bool} {P : Prop} {s : Scope InWorld}
  {names : List String} {resolve : Tree → String → Resolving InWorld Tree}

/-- The tree can be resolved to the other. -/
def Resolves (s : Scope InWorld) (resolve : Tree → String → Resolving InWorld Tree) (reuse : Bool)
    (t t' : Tree) : Prop :=
  ∃ room location position,
    Gives (WellFormedSources reuse)
      (resolveTree (s.resolveMapping resolve room) location position t) t'

/-- The value, with more placed beneath its mappings, can be resolved to the other. -/
def Settles (s : Scope InWorld) (resolve : Tree → String → Resolving InWorld Tree) (reuse : Bool)
    (v v' : Tree) : Prop :=
  ∃ u, u.WellFormed ∧ Keeps (carriedOut s.includes reuse) v u ∧ s.Resolves resolve reuse u v'

/-- A value that is no mapping can be resolved to the other: a sequence item by item, anything else
to itself. -/
inductive ResolvesLeaf (s : Scope InWorld) (resolve : Tree → String → Resolving InWorld Tree)
    (reuse : Bool) : Tree → Tree → Prop
  | items {room : Nat} {location : String} {position : Position} {items items' : List Tree}
    (h : Gives (WellFormedSources reuse)
      (resolveItems (s.resolveMapping resolve room) location position 0 items) items') :
    ResolvesLeaf s resolve reuse (.seq items) (.seq items')
  | same (t : Tree) (hseq : ∀ items, t ≠ .seq items) : ResolvesLeaf s resolve reuse t t

/-- Without directives no value is changed. -/
theorem ResolvesLeaf.eq_of_lacks {v v' : Tree} (h : s.ResolvesLeaf resolve reuse v v')
    (hv : v.Lacks all) : v' = v := by
  cases h with
  | items h =>
    obtain ⟨p, w, p', w', -, hrun⟩ := h
    rw [resolveItems_of_lacks hv] at hrun
    cases hrun
    rfl
  | same => rfl

theorem Settles.resolvesLeaf {v v' : Tree} (h : s.Settles resolve reuse v v')
    (hleaf : ∀ es, v ≠ .map es) : s.ResolvesLeaf resolve reuse v v' := by
  obtain ⟨u, -, hkeeps, room, location, position, p, w, p', w', hsources, hrun⟩ := h
  rw [hkeeps.alike.eq hleaf] at hrun
  cases v with
  | map es => exact absurd rfl (hleaf es)
  | seq items =>
    rw [resolveTree] at hrun
    obtain ⟨items', p₁, w₁, hitems, hrun⟩ := run_bind_ok hrun
    cases hrun
    exact .items ⟨p, w, _, _, hsources, hitems⟩
  | _ =>
    unfold resolveTree at hrun
    cases hrun
    exact .same _ (by simp)

/-! ## Well-formedness and own values -/

/-- The tree is resolved to a well-formed tree which, in the place of each value, has what the value
is resolved to. -/
structure Resolved (s : Scope InWorld) (resolve : Tree → String → Resolving InWorld Tree)
    (reuse : Bool) (t t' : Tree) : Prop where
  settled : Matches (carriedOut s.includes reuse) (s.Settles resolve reuse) t t'
  wellFormed : t'.WellFormed

namespace Resolved

/-- The values of a mapping are kept until they are resolved. -/
theorem values {own es es' : Entries}
    (hkeeps : Keeps (carriedOut s.includes reuse) (.map own) (.map es))
    (h : List.Forall₂ (fun e e' => e'.1 = e.1 ∧ s.Resolved resolve reuse e.2 e'.2) es es')
    {key v : Tree} {rest : List Step}
    (hpath : Avoids (carriedOut s.includes reuse) (.value key :: rest))
    (hv : (Tree.map own).at? (.value key :: rest) = some v) :
    ∃ v', (Tree.map es').at? (.value key :: rest) = some v' ∧ s.Settles resolve reuse v v' := by
  obtain ⟨x, hx, hvx⟩ := hkeeps.at? hpath hv
  obtain ⟨_, u, hmap, hget, hu⟩ := map_of_at? hx
  cases hmap
  have hresolved : ∃ u', Entries.get? es' key = some u' ∧ s.Resolved resolve reuse u u' := by
    clear hkeeps hx
    induction h with
    | nil => cases hget
    | @cons e e' es es' hfirst _ ih =>
      obtain ⟨k, y⟩ := e
      obtain ⟨k', y'⟩ := e'
      obtain ⟨rfl, hvalue⟩ := hfirst
      rw [Entries.get?_cons] at hget ⊢
      split
      next hsame =>
        rw [if_pos hsame, Option.some_inj] at hget
        exact ⟨y', rfl, hget ▸ hvalue⟩
      next hsame =>
        rw [if_neg hsame] at hget
        exact ih hget
  obtain ⟨u', hget', hsettled⟩ := hresolved
  obtain ⟨v', hv', y, hy, hkept, hresolves⟩ :=
    hsettled.settled rest x (avoids_cons.1 hpath).2 hu
  exact ⟨v', by rw [at?_map, hget', Option.bind_some, hv'], y, hy, hvx.trans hkept, hresolves⟩

theorem entries {own es es' : Entries} (hown : WellFormed (.map own)) (hes : WellFormed (.map es))
    (hkeeps : Keeps (carriedOut s.includes reuse) (.map own) (.map es))
    (hrun : s.Resolves resolve reuse (.map own) (.map es'))
    (h : List.Forall₂ (fun e e' => e'.1 = e.1 ∧ s.Resolved resolve reuse e.2 e'.2) es es') :
    s.Resolved resolve reuse (.map own) (.map es') where
  settled path v hpath hv := by
    cases path with
    | nil =>
      rw [at?_nil, Option.some_inj] at hv
      exact ⟨_, at?_nil _, _, hown, hv ▸ Keeps.refl _, hrun⟩
    | cons step rest =>
      cases step with
      | value key => exact values hkeeps h hpath hv
      | item i =>
        obtain ⟨_, _, hseq, -⟩ := seq_of_at? hv
        cases hseq
  wellFormed := by
    have hkeys : Entries.keys es' = Entries.keys es := by
      clear hes hkeeps hrun
      induction h with
      | nil => rfl
      | cons hfirst _ ih => exact List.cons_eq_cons.2 ⟨hfirst.1, ih⟩
    refine hes.of_keys hkeys fun e' he' => ?_
    obtain ⟨e, -, -, hvalue⟩ := exists_of_mem_forall₂ h he'
    exact hvalue.wellFormed

theorem items {items items' : List Tree} (hitems : WellFormed (.seq items))
    (hrun : s.Resolves resolve reuse (.seq items) (.seq items'))
    (h : List.Forall₂ (s.Resolved resolve reuse) items items') :
    s.Resolved resolve reuse (.seq items) (.seq items') where
  settled path v hpath hv := by
    cases path with
    | nil =>
      rw [at?_nil, Option.some_inj] at hv
      exact ⟨_, at?_nil _, _, hitems, hv ▸ Keeps.refl _, hrun⟩
    | cons step rest =>
      cases step with
      | value key =>
        obtain ⟨_, _, hmap, -⟩ := map_of_at? hv
        cases hmap
      | item i =>
        obtain ⟨_, u, hseq, hget, hu⟩ := seq_of_at? hv
        cases hseq
        obtain ⟨hi, rfl⟩ := List.getElem?_eq_some_iff.1 hget
        have hi' : i < items'.length := h.length_eq ▸ hi
        obtain ⟨v', hv', hsettles⟩ :=
          (h.get hi hi').settled rest v (avoids_cons.1 hpath).2 hu
        refine ⟨v', ?_, hsettles⟩
        rw [at?_seq, List.getElem?_eq_getElem hi', Option.bind_some]
        exact hv'
  wellFormed := wellFormed_seq.2 fun t' ht' => by
    obtain ⟨t, -, hresolved⟩ := exists_of_mem_forall₂ h ht'
    exact hresolved.wellFormed

end Resolved

theorem resolved_follows :
    Follows WellFormed (s.Resolves resolve reuse) (s.Resolved resolve reuse) where
  inItems h := wellFormed_seq.1 h
  inEntries h e he := ((wellFormed_map.1 h).2 e he).2
  leaf {t} ht hseq hmap hrun := by
    refine ⟨fun path v hpath hv => ?_, ht⟩
    cases path with
    | nil =>
      rw [at?_nil, Option.some_inj] at hv
      exact ⟨_, at?_nil _, _, ht, hv ▸ Keeps.refl _, hrun⟩
    | cons step rest =>
      cases step with
      | value key =>
        obtain ⟨es, _, rfl, -⟩ := map_of_at? hv
        exact absurd rfl (hmap es)
      | item i =>
        obtain ⟨items, _, rfl, -⟩ := seq_of_at? hv
        exact absurd rfl (hseq items)
  seq hitems hrun h := Resolved.items hitems hrun h
  map hes _ hrun h := Resolved.entries hes hes (Keeps.refl _) hrun h

/-- The mapping that its directives have made of another so far. -/
def KeepsEntries (names : List String) (own es : Entries) : Prop :=
  WellFormed (.map es) ∧ Keeps names (.map own) (.map es)

theorem wellFormedSources_rebindable (own : Entries) :
    Rebindable (WellFormedSources reuse) (KeepsEntries names own) := by
  intro es own others path new hes ⟨hreuse, hwf⟩ hnew
  refine ⟨hreuse, fun list hlist t ht => ?_⟩
  cases hlist
  rcases List.mem_cons.1 ht with rfl | ht
  · exact WellFormed.replace? hes.1 (hwf _ rfl own List.mem_cons_self) hnew
  · exact hwf _ rfl t (List.mem_cons_of_mem _ ht)

/-- Carrying out a directive keeps all that is not under its key. -/
theorem KeepsEntries.underlay {own es : Entries} (hes : KeepsEntries names own es) {base : Tree}
    (hbase : base.WellFormed) {name : String} (hname : name ∈ names) :
    KeepsEntries names own (Tree.underlay base (Entries.erase es (.str name))) := by
  obtain ⟨hwf, hkeeps⟩ := hes
  have herase := hwf.erase (.str name)
  exact ⟨hbase.underlay herase, (hkeeps.trans (Keeps.erase hname es)).trans
    (Keeps.underlay hbase herase)⟩

theorem KeepsEntries.take {es : Entries} (hes : WellFormed (.map es)) {f : Flattening}
    (h : (Flattening.take es).2 = .ok f) (hflatten : flattenKey ∈ names)
    (hseparator : separatorKey ∈ names) : KeepsEntries names es (Flattening.take es).1 := by
  rw [Flattening.take_fst h]
  exact ⟨(hes.erase _).erase _, (Keeps.erase hflatten es).trans (Keeps.erase hseparator _)⟩

section Resolving

variable (hK : Unnoted K)
  (hload : ∀ file chain location, Fulfils S K True (s.load file chain location) fun r =>
    r.1.WellFormed)
include hK hload

theorem steps_included_wellFormed (f : Flattening) (location : String) (value : Tree) :
    Steps S K (WellFormedSources reuse) P (s.included value location f) WellFormed :=
  steps_included hK wellFormed_empty WellFormed.merge (fun file chain location =>
    (hload file chain location).mono (fun _ => trivial) fun _ h => h.flatten _ _) value

omit hK hload in
theorem steps_reused_wellFormed
    (hresolve : ∀ base location, Steps S K (WellFormedSources reuse) base.WellFormed
      (resolve base location) WellFormed)
    (f : Flattening) (location : String) (sources : List Tree) (value : Tree) :
    Steps S K (WellFormedSources reuse) (P ∧ WellFormedSources reuse (some sources))
      (s.reused resolve sources value location f) WellFormed := by
  refine steps_reused wellFormed_empty WellFormed.merge (fun h name found hfound => ?_)
    (fun base => (hresolve base location).mono (fun h => h.2) fun _ h => h.flatten _ _) value
  obtain ⟨t, ht, hlookup⟩ := List.exists_of_findSome?_eq_some hfound
  exact WellFormed.lookup (h.2.2 sources rfl t ht) hlookup

theorem steps_includeStep_keeps (f : Flattening) (location : String) (position : Position)
    (own es : Entries) :
    Steps S K (WellFormedSources reuse) (KeepsEntries (carriedOut s.includes reuse) own es)
      (s.includeStep f location position es)
      (KeepsEntries (carriedOut s.includes reuse) own) := by
  refine (steps_includeStep (P := True) (wellFormedSources_rebindable own)
    (fun hincludes _ hes hbase => hes.underlay hbase ?_)
    (steps_included_wellFormed hK hload f location) es).mono (fun h => ⟨trivial, h⟩) fun _ h => h
  simp [carriedOut, hincludes]

omit hK hload in
theorem steps_useStep_keeps
    (hresolve : ∀ base location, Steps S K (WellFormedSources reuse) base.WellFormed
      (resolve base location) WellFormed)
    (f : Flattening) (location : String) (position : Position) (own es : Entries) :
    Steps S K (WellFormedSources reuse) (KeepsEntries (carriedOut s.includes reuse) own es)
      (s.useStep resolve f location position es)
      (KeepsEntries (carriedOut s.includes reuse) own) := by
  refine (steps_useStep (P := True) (fun h => h.1) (wellFormedSources_rebindable own)
    (fun hreuse _ hes hbase => hes.underlay hbase ?_)
    (steps_reused_wellFormed hresolve f location) es).mono (fun h => ⟨trivial, h⟩) fun _ h => h
  simp [carriedOut, hreuse]

theorem steps_substitute_keeps
    (hresolve : ∀ base location, Steps S K (WellFormedSources reuse) base.WellFormed
      (resolve base location) WellFormed)
    (f : Flattening) (location : String) (position : Position) (passes : Nat) (own es : Entries) :
    Steps S K (WellFormedSources reuse) (KeepsEntries (carriedOut s.includes reuse) own es)
      (s.substitute resolve f location position passes es)
      (KeepsEntries (carriedOut s.includes reuse) own) := by
  refine (steps_substitute (P := True) (fun h => h.1) (wellFormedSources_rebindable own)
    (fun hincludes _ hes hbase => hes.underlay hbase ?_)
    (steps_included_wellFormed hK hload f location)
    (fun hreuse _ hes hbase => hes.underlay hbase ?_)
    (steps_reused_wellFormed hresolve f location) passes es).mono (fun h => ⟨trivial, h⟩)
    fun _ h => h.1
  · simp [carriedOut, hincludes]
  · simp [carriedOut, hreuse]

theorem steps_resolveMapping_resolved
    (hresolve : ∀ base location, Steps S K (WellFormedSources reuse) base.WellFormed
      (resolve base location) WellFormed)
    (room : Nat) (es : Entries) (location : String) (position : Position)
    (hdirected : isDirected es = true) :
    Steps S K (WellFormedSources reuse) (WellFormed (.map es))
      (s.resolveMapping resolve room es location position)
      (s.Resolved resolve reuse (.map es)) := by
  induction room generalizing es location position with
  | zero => exact Steps.fail
  | succ room ih =>
    refine Steps.of_gives (R := s.Resolves resolve reuse (.map es)) (fun t h => ?_) ?_
    · refine ⟨room + 1, location, position, ?_⟩
      rwa [resolveTree, if_pos hdirected]
    · unfold resolveMapping
      dsimp only
      refine Steps.orFail.bind fun f => ?_
      refine Steps.bind ((steps_substitute_keeps hK hload hresolve f location position
        substitutionLimit es (Flattening.take es).1).mono (fun h => ?_) fun _ h => h) fun es' => ?_
      · exact KeepsEntries.take h.1 h.2 (flattenKey_mem_carriedOut _ _)
          (separatorKey_mem_carriedOut _ _)
      have hvalues := steps_resolveEntries (D := WellFormed)
        (R := s.Resolved resolve reuse)
        (fun e (_ : e ∈ es') => steps_resolveTree resolved_follows (fun h => ⟨_, _, _, h⟩) ih e.2)
        location position
      refine Steps.bind (hvalues.mono (fun h => ?_) fun _ h => h) fun es'' =>
        Steps.pure fun h hrun => ?_
      · exact fun e he => ((wellFormed_map.1 h.2.1).2 e he).2
      · obtain ⟨⟨⟨hown, -⟩, hwf, hkeeps⟩, hes''⟩ := h
        exact Resolved.entries hown hwf hkeeps hrun hes''

theorem steps_resolveReused_wellFormed (levels : Nat) (base : Tree) (location : String) :
    Steps S K (WellFormedSources reuse) base.WellFormed (s.resolveReused levels base location)
      WellFormed := by
  induction levels generalizing base location with
  | zero => exact Steps.fail
  | succ levels ih =>
    exact (steps_resolveTree resolved_follows (fun h => ⟨_, _, _, h⟩)
      (steps_resolveMapping_resolved hK hload ih _) base location none).mono id
      fun _ h => h.wellFormed

theorem steps_resolveDocument_resolved (location : String) (position : Position)
    (document : Tree) :
    Steps S K (WellFormedSources reuse) document.WellFormed
      (s.resolveDocument location position document)
      (s.Resolved (s.resolveReused substitutionLimit) reuse document) :=
  steps_resolveTree resolved_follows (fun h => ⟨_, _, _, h⟩) (steps_resolveMapping_resolved hK hload
    (steps_resolveReused_wellFormed hK hload substitutionLimit) _) document location position

end Resolving

end Scope

/-! ## Files -/

namespace Settings

variable {s : Settings} {S : FilePath → Prop} {P : Prop}

/-- The document of a file is read from a text. -/
theorem read_of_document {w : World} {path : FilePath} {t : Tree}
    (h : (w.document path).1 = some t) : ∃ text, Document.read text = .ok t := by
  unfold World.document at h
  dsimp only at h
  split at h
  · cases h
  · obtain ⟨text, -, h⟩ := Option.bind_eq_some_iff.1 h
    refine ⟨text, ?_⟩
    cases hread : Document.read text with
    | error fault =>
      rw [hread] at h
      cases h
    | ok t =>
      rw [hread] at h
      cases h
      rfl

/-- A document that is read is well-formed. -/
theorem document_wellFormed {w : World} {path : FilePath} {t : Tree}
    (h : (w.document path).1 = some t) : t.WellFormed := by
  obtain ⟨text, hread⟩ := read_of_document h
  exact Document.read_wellFormed hread

/-- A tree that the cache answers with is well-formed. -/
theorem lookup_wellFormed {store : Store} {paths : List FilePath} {keys : List String}
    {w w' : World} {tree : Tree} {ledger : Ledger}
    (h : outcome (store.lookup paths keys) w = (.ok (some (tree, ledger)), w')) :
    tree.WellFormed := by
  obtain ⟨rfl, e, written, hanswers, hhit⟩ :=
    Store.answer_eq_some_iff.1 (Store.answer_of_lookup h)
  cases hhit
  have hentry := hanswers.entry
  unfold World.entry at hentry
  split at hentry
  · cases hentry
  · split at hentry
    next hdecode =>
      cases hentry
      exact Envelope.decode_wellFormed hdecode
    · cases hentry

theorem cached_wellFormed {store : Option (Store × List String)} {paths : List FilePath}
    {w w' : World} {answer : Option (Tree × Ledger)}
    (h : outcome (cached store paths) w = (.ok answer, w')) :
    ∀ hit ∈ answer, hit.1.WellFormed := by
  rintro ⟨tree, ledger⟩ hhit
  unfold cached at h
  split at h
  · rw [Option.mem_def.1 hhit] at h
    exact lookup_wellFormed h
  · cases h
    cases hhit

theorem withPath_none (path : FilePath) (t : Tree) : withPath none path t = t := by
  cases t <;> rfl

theorem withPath_wellFormed {field : Option String} {path : FilePath} {t : Tree}
    (ht : t.WellFormed) : (withPath field path t).WellFormed := by
  unfold withPath
  split
  · split
    · exact ht.put (wellFormed_str _) (wellFormed_str _)
    · exact ht
  · exact ht

theorem anyWorld : Unnoted fun _ => True where
  memo _ _ := trivial
  warned _ _ := trivial
  parsed _ _ := trivial

theorem wellFormedSources_with {request : Request}
    (hsources : ∀ list ∈ request.sources, ∀ t ∈ list, t.WellFormed) {document : Tree}
    (hdocument : document.WellFormed) :
    WellFormedSources request.sources.isSome (request.sourcesWith document) := by
  refine ⟨by simp [Request.sourcesWith], fun list hlist t ht => ?_⟩
  obtain ⟨outside, houtside, rfl⟩ := Option.map_eq_some_iff.1 hlist
  split at ht
  · rcases List.mem_cons.1 ht with rfl | ht
    · exact hdocument
    · exact hsources outside houtside t ht
  · exact hsources outside houtside t ht

/-- The document of a request is resolved to a well-formed tree which, in the place of each of its
values, has what the value is resolved to. -/
def Resolved (s : Settings) (load : FilePath → List FilePath → String →
    ExceptT Error InWorld (Tree × Ledger)) (request : Request) (document t : Tree) : Prop :=
  ∃ room, (s.scope load request room).Resolved
    ((s.scope load request room).resolveReused substitutionLimit) request.sources.isSome document t

theorem fulfils_resolveFor_resolved {load : FilePath → List FilePath → String →
      ExceptT Error InWorld (Tree × Ledger)}
    (hload : ∀ file chain location, Fulfils S (fun _ => True) True (load file chain location)
      fun r => r.1.WellFormed)
    {request : Request} (hsources : ∀ list ∈ request.sources, ∀ t ∈ list, t.WellFormed)
    (document : Tree) :
    Fulfils S (fun _ => True) document.WellFormed (s.resolveFor load request document) fun r =>
      s.Resolved load request document r.1 :=
  Scope.fulfils_resolveFor anyWorld
    (fun room => (Scope.steps_resolveDocument_resolved anyWorld hload _ _ document).mono id
      fun _ h => ⟨room, h⟩)
    (wellFormedSources_with hsources)

theorem Resolved.wellFormed {load : FilePath → List FilePath → String →
      ExceptT Error InWorld (Tree × Ledger)} {request : Request} {document t : Tree}
    (h : s.Resolved load request document t) : t.WellFormed :=
  h.elim fun _ hresolved => hresolved.wellFormed

/-- Every file is loaded as a well-formed tree. -/
theorem fulfils_loadFile_wellFormed (budget : Nat) {request : Request}
    (hsources : ∀ list ∈ request.sources, ∀ t ∈ list, t.WellFormed) :
    Fulfils S (fun _ => True) P (s.loadFile budget request) fun r => r.1.WellFormed := by
  induction budget generalizing request P with
  | zero => exact Fulfils.throw _
  | succ budget ih =>
    unfold loadFile
    dsimp only
    refine Fulfils.bind (Q := fun answer => ∀ hit ∈ answer, hit.1.WellFormed)
      (Fulfils.of_unread (leaves_cached sameParsed_writing _ _).related
        fun _ _ _ hrun _ _ => ⟨cached_wellFormed hrun, trivial⟩) fun answer => ?_
    split
    next hit => exact Fulfils.pure fun h => h.2 hit rfl
    · refine Fulfils.bind (Q := fun document => ∀ t ∈ document, t.WellFormed) ?_ fun document => ?_
      · intro w r w' hrun
        cases hrun
        exact ⟨[request.path], rfl, fun _ _ _ => ⟨fun t ht => document_wellFormed ht, trivial⟩⟩
      split
      · exact Fulfils.throw _
      next document =>
        refine (Fulfils.of_noting anyWorld (leaves_add · _ _)).bind fun ledger => ?_
        have hincluded : ∀ path chain location, Fulfils S (fun _ => True) True
            (s.loadFile budget (s.includedRequest request.pathField path chain location))
            fun r => r.1.WellFormed := fun path chain location =>
          ih (by simp [includedRequest])
        refine Fulfils.bind ((fulfils_resolveFor_resolved hincluded hsources document).mono
          (fun h => h.1.2 _ rfl) fun _ h => h) fun r => ?_
        refine Fulfils.of_unread (leaves_keep sameParsed_writing _ _ _ _ _).related
          fun w r w' hrun h _ => ⟨?_, trivial⟩
        rw [keep_fst hrun]
        exact withPath_wellFormed h.2.wellFormed

/-! ## Documents -/

/-- What the resolution of a document is told for some options. So many files may include one
another, and directives may be nested so deep. -/
def scopeFor (s : Settings) (o : LoadOptions) (owner : FilePath) (budget room : Nat) :
    Scope InWorld :=
  s.scope (fun path chain location =>
    s.loadFile budget (s.includedRequest o.pathField path chain location))
    (o.request owner none) room

variable {o : LoadOptions}

theorem scopeFor_loads (owner : FilePath) (budget room : Nat) (file : FilePath)
    (chain : List FilePath) (location : String) :
    Fulfils S (fun _ => True) True ((s.scopeFor o owner budget room).load file chain location)
      fun r => r.1.WellFormed :=
  fulfils_loadFile_wellFormed budget (by simp [includedRequest])

/-- The document is resolved to the tree for some options: in the place of each value the tree has
what the value is resolved to. -/
def ResolvedFor (s : Settings) (o : LoadOptions) (owner : FilePath) (document t : Tree) : Prop :=
  ∃ budget room, (s.scopeFor o owner budget room).Resolved
    ((s.scopeFor o owner budget room).resolveReused substitutionLimit) true document t

section Documents

variable (hsources : ∀ list ∈ o.sources, ∀ t ∈ list, t.WellFormed)
include hsources

theorem resolveFor_resolved {owner : FilePath} {keys : Option (List String)} {budget : Nat}
    {document t : Tree} (hdocument : document.WellFormed) {ledger : Ledger} {w w' : World}
    (h : outcome (s.resolveFor (fun path chain location =>
        s.loadFile budget (s.includedRequest o.pathField path chain location))
      (o.request owner keys) document) w = (.ok (t, ledger), w')) :
    s.ResolvedFor o owner document t := by
  have hgiven := LoadOptions.forall_request_sources hsources owner keys
  obtain ⟨room, hresolved⟩ := (fulfils_resolveFor_resolved (S := fun _ => True)
    (scopeFor_loads owner budget 0) hgiven document).post hdocument h (fun _ _ => trivial) trivial
  exact ⟨budget, room, hresolved⟩

theorem resolve_resolved {document t : Tree} (hdocument : document.WellFormed) {owner : FilePath}
    {ledger : Ledger} {w w' : World}
    (h : outcome (s.resolve document owner o) w = (.ok (t, ledger), w')) :
    ∃ owner', s.ResolvedFor o owner' document t := by
  unfold resolve at h
  obtain ⟨owner', w₁, -, hrest⟩ := outcome_bind_ok h
  obtain ⟨budget, w₂, -, hrun⟩ := outcome_bind_ok hrest
  exact ⟨owner', resolveFor_resolved hsources hdocument hrun⟩

/-- A load is answered by the cache, or else a document is read and resolved. -/
theorem load_resolved {t : Tree} (hfield : o.pathField = none) {path : FilePath} {ledger : Ledger}
    {w w' : World} (h : outcome (s.load path o) w = (.ok (t, ledger), w')) :
    (∃ owner w₁, outcome (cached (s.storeFor? (s.loadKeys? o)) [owner]) w₁ =
      (.ok (some (t, ledger)), w')) ∨
    ∃ owner document, ∃ w₁ : World, (w₁.document owner).1 = some document ∧
      s.ResolvedFor o owner document t := by
  rw [load_run] at h
  rcases loadFile_ok h with
    hanswer | ⟨document, added, tree, consulted, w₃, w₄, w₅, -, hread, -, hrun, hkeep⟩
  · exact .inl ⟨_, w, hanswer⟩
  · obtain rfl := keep_fst hkeep
    refine .inr ⟨_, document, w₃, hread, ?_⟩
    change s.ResolvedFor o _ document (withPath o.pathField _ tree)
    rw [hfield, withPath_none]
    exact resolveFor_resolved hsources (document_wellFormed hread) hrun

end Documents

end Settings

end LayeredConfig
