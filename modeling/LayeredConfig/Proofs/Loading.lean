import LayeredConfig.Proofs.OwnValues

/-!
# Loading a document that is read

Unless the cache answers it, a load reads the document of the file and ends as the resolution of
that document does: keeping the ledger and the result does not fail.
-/

namespace LayeredConfig

namespace Settings

variable {s : Settings} {o : LoadOptions} {path : FilePath} {document : Tree} {w : World}

/-- The load is not answered by the cache, and the file it loads has the document. -/
def Reads (s : Settings) (o : LoadOptions) (path : FilePath) (w : World) (document : Tree) : Prop :=
  let file := FilePath.normalize w.directory path
  ∃ w₁, outcome (cached (s.storeFor? (s.loadKeys? o)) [file]) w = (.ok none, w₁) ∧
    (w₁.document file).1 = some document

theorem Reads.wellFormed (h : s.Reads o path w document) : document.WellFormed := by
  obtain ⟨w₁, -, hdocument⟩ := h
  exact document_wellFormed hdocument

/-- Without a cache, what the file has is read. -/
theorem reads_of_uncached (hcache : s.cache = none)
    (h : (w.document (FilePath.normalize w.directory path)).1 = some document) :
    s.Reads o path w document := by
  have hstore : s.storeFor? (s.loadKeys? o) = none := by simp [storeFor?, store?, hcache]
  exact ⟨w, by rw [hstore]; rfl, h⟩

/-- How the resolution of a document for a load ends. -/
def run (s : Settings) (o : LoadOptions) (file : FilePath) (budget room : Nat) (document : Tree)
    (w : World) : Except Error (Tree × Progress) × World :=
  outcome (((s.scopeFor o file budget room).resolveDocument o.label
    (o.request file none).position document).run
      ⟨(o.request file none).sourcesWith document, Ledger.empty⟩) w

theorem trivial_writing : Writing fun _ _ => True where
  refl _ := trivial
  trans _ _ := trivial
  memo _ _ := trivial
  warned _ _ := trivial
  nodes _ _ := trivial

/-- The load ends as the resolution of the document does. -/
theorem Reads.load_ends (h : s.Reads o path w document) :
    ∃ room w₁, let file := FilePath.normalize w.directory path
      (∀ t p w₂, s.run o file w.nodes.length room document w₁ = (.ok (t, p), w₂) →
        ∃ ledger w₃,
          outcome (s.load path o) w = (.ok (withPath o.pathField file t, ledger), w₃)) ∧
      ∀ e w₂, s.run o file w.nodes.length room document w₁ = (.error e, w₂) →
        outcome (s.load path o) w = (.error e, w₂) := by
  obtain ⟨w₁, hcached, hdocument⟩ := h
  generalize hfile : FilePath.normalize w.directory path = file at hcached hdocument
  obtain ⟨ledger, w₂, hadd, -⟩ :=
    leaves_add trivial_writing.toNoting Ledger.empty file (w₁.document file).2
  have hload : outcome (s.load path o) w = outcome (do
      let r ← s.resolveFor
        (fun path chain location =>
          s.loadFile w.nodes.length (s.includedRequest o.pathField path chain location))
        (o.request file (s.loadKeys? o)) document
      keep (s.storeFor? (s.loadKeys? o)) [file] file.text (withPath o.pathField file r.1)
        (ledger.update r.2)) w₂ := by
    have hread : outcome (Host.document file : ExceptT Error InWorld (Option Tree)) w₁ =
        (.ok (some document), (w₁.document file).2) := by
      rw [← hdocument]
      rfl
    rw [load_run, hfile, loadFile]
    refine (outcome_bind_of_ok hcached _).trans ?_
    refine (outcome_bind_of_ok hread _).trans ?_
    exact outcome_bind_of_ok hadd _
  have hroom : outcome (nestingRoom : ExceptT Error InWorld Nat) w₂ =
      (.ok (Yaml.depthLimit * (w₂.nodes.length + 1)), w₂) := rfl
  refine ⟨Yaml.depthLimit * (w₂.nodes.length + 1), w₂, fun t p w₃ hrun => ?_,
    fun e w₃ hrun => ?_⟩
  · have hresolved : outcome (s.resolveFor (fun path chain location =>
          s.loadFile w.nodes.length (s.includedRequest o.pathField path chain location))
        (o.request file (s.loadKeys? o)) document) w₂ = (.ok (t, p.ledger), w₃) := by
      rw [resolveFor, outcome_bind_of_ok hroom]
      exact outcome_bind_of_ok hrun _
    rw [hload, outcome_bind_of_ok hresolved]
    obtain ⟨⟨t', ledger'⟩, w₄, hkeep, -⟩ := leaves_keep trivial_writing
      (s.storeFor? (s.loadKeys? o)) [file] file.text (withPath o.pathField file t)
      (ledger.update p.ledger) w₃
    obtain rfl : t' = withPath o.pathField file t := keep_fst hkeep
    exact ⟨ledger', w₄, hkeep⟩
  · have hresolved : outcome (s.resolveFor (fun path chain location =>
          s.loadFile w.nodes.length (s.includedRequest o.pathField path chain location))
        (o.request file (s.loadKeys? o)) document) w₂ = (.error e, w₃) := by
      rw [resolveFor, outcome_bind_of_ok hroom]
      exact outcome_bind_of_error hrun _
    rw [hload, outcome_bind_of_error hresolved]

end Settings

end LayeredConfig
