import LayeredConfig.Proofs.Memory
import LayeredConfig.Proofs.Moves

/-!
# Loading a file and resolving its document

A file is loaded by reading its document and resolving it as the document of that file. Whether the
loader does the reading or the caller makes no difference without a cache (`load_agrees_with_resolve`):
the errors are the same, the trees are but for the path of the file, and the ledger of the load
begins with the record of the file and goes on with that of the resolution, which has no record of
the file since no file includes itself.
-/

namespace LayeredConfig

variable {w w' : World}

/-! ## Ledgers without repetitions -/

namespace Ledger

/-- What is taken up by a new ledger is taken up as it is: no path is there twice. -/
def IsUnion (l : Ledger) : Prop := empty.update l = l

theorem isUnion_empty : IsUnion empty := rfl

theorem IsUnion.update {l : Ledger} (h : l.IsUnion) (m : Ledger) : (l.update m).IsUnion := by
  rw [IsUnion, update_update, h]

/-- A record of another path can be put in front of the records. -/
theorem IsUnion.update_record {l : Ledger} (h : l.IsUnion) {path : FilePath} (r : Record)
    (hpath : covers l.records path = false) :
    Ledger.update ⟨[(path, r)], []⟩ l = ⟨(path, r) :: l.records, l.missed⟩ := by
  rw [IsUnion, update_eq] at h
  obtain ⟨hrecords, hmissed⟩ := Ledger.mk.inj h
  have hothers : l.records.filter (fun e => !covers [(path, r)] e.1) = l.records := by
    rw [List.filter_eq_self]
    intro e he
    have hother : e.1.same path = false := Bool.eq_false_iff.2 fun hsame =>
      Bool.eq_false_iff.1 hpath (covers_iff.2 ⟨e, he, hsame⟩)
    rw [FilePath.same_comm] at hother
    simp [covers, hother]
  have hrest : notes [(path, r)] l.records = (path, r) :: l.records := by
    rw [notes_eq, hothers, ← notes_empty]
    exact congrArg _ hrecords
  rw [update_eq, hrest]
  exact congrArg _ hmissed

end Ledger

/-! ## Files that are being included -/

namespace Settings

variable {s : Settings}

/-- A resolution gives a ledger without repetitions and without a record of a file of the chain, if
the loads of included files give none of it. -/
theorem unrecorded_of_resolveFor {load : FilePath → List FilePath → String →
      ExceptT Error InWorld (Tree × Ledger)} {request : Request} (hpath : request.path.IsNormal)
    {avoided : FilePath} (hload : ∀ file location w t l w', file.IsNormal → file ∉ request.chain →
      outcome (load file request.chain location) w = (.ok (t, l), w') →
      Ledger.covers l.records avoided = false)
    {document t : Tree} {l : Ledger}
    (h : outcome (s.resolveFor load request document) w = (.ok (t, l), w')) :
    l.IsUnion ∧ Ledger.covers l.records avoided = false := by
  obtain ⟨room, p, rfl, hmoves⟩ := resolveFor_moves hpath h
  suffices hkept : ∀ {a b : Progress × World},
      Relation.ReflTransGen (Move (s.scope load request room)) a b →
      (a.1.ledger.IsUnion ∧ Ledger.covers a.1.ledger.records avoided = false) →
      b.1.ledger.IsUnion ∧ Ledger.covers b.1.ledger.records avoided = false from
    hkept hmoves ⟨Ledger.isUnion_empty, rfl⟩
  intro a b hmoves ha
  induction hmoves with
  | refl => exact ha
  | tail _ hmove ih =>
    obtain ⟨hunion, hrecords⟩ := ih
    cases hmove with
    | rebound p w sources => exact ⟨hunion, hrecords⟩
    | met hm howner p warnings => exact ⟨hunion.update _, hrecords⟩
    | loaded hfile hchain hloaded p =>
      refine ⟨hunion.update _, ?_⟩
      rw [Ledger.update_eq, Ledger.covers_notes, hrecords,
        hload _ _ _ _ _ _ hfile hchain hloaded, Bool.or_false]

/-- A file is recorded by its own load, but not by the loads of the files it includes. -/
theorem unrecorded_of_loadFile (hs : s.cache = none) {budget : Nat} {request : Request}
    (hpath : request.path.IsNormal) {avoided : FilePath} (havoided : avoided.IsNormal)
    (hchain : avoided ∈ request.chain) (hother : avoided ≠ request.path) {t : Tree} {l : Ledger}
    (h : outcome (s.loadFile budget request) w = (.ok (t, l), w')) :
    Ledger.covers l.records avoided = false := by
  induction budget generalizing request w w' t l with
  | zero => cases h
  | succ budget ih =>
    have hstore : s.storeFor? request.cacheKeys = none := storeFor?_eq_none (.inl hs)
    rcases loadFile_ok h with hcached | ⟨document, added, tree, consulted, w₁, w₂, w₃, -, -, hadd,
      hresolve, hkeep⟩
    · rw [hstore] at hcached
      cases hcached
    · obtain ⟨memo, hadd', -⟩ := add_run hpath (w₁.document request.path).2
      cases hadd'.symm.trans hadd
      rw [hstore] at hkeep
      cases hkeep
      have hown : Ledger.covers [(request.path, (w₁.document request.path).2.observed
          request.path [])] avoided = false := by
        have hsame : request.path.same avoided = false := Bool.eq_false_iff.2 fun hsame =>
          hother ((hpath.same_iff havoided).1 hsame).symm
        simp [Ledger.covers, hsame]
      have hloads : ∀ file location v t l v', file.IsNormal → file ∉ request.chain →
          outcome (s.loadFile budget
            (s.includedRequest request.pathField file request.chain location)) v =
              (.ok (t, l), v') → Ledger.covers l.records avoided = false := by
        intro file location v t l v' hfile hfresh hload
        refine ih hfile (List.mem_append_left _ hchain) (fun heq => hfresh ?_) hload
        exact Eq.subst heq hchain
      obtain ⟨-, hconsulted⟩ := unrecorded_of_resolveFor hpath hloads hresolve
      rw [Ledger.update_eq, Ledger.covers_notes, hown, hconsulted]
      rfl

/-! ## The two ways in -/

/-- A load without a cache is a resolution of the document in a world that differs in what is
remembered, and its ledger begins with the record of the file. -/
theorem load_outcome (hs : s.cache = none) {file : FilePath} (hfile : file.IsNormal)
    (budget : Nat) {request : Request} (hrequest : request.path = file) {document : Tree}
    (hdocument : (w.document file).1 = some document) :
    ∃ w₁, Kin w w₁ ∧ outcome (s.loadFile (budget + 1) request) w =
      outcome (s.resolveFor (fun path chain location =>
          s.loadFile budget (s.includedRequest request.pathField path chain location))
        request document >>= fun r => pure (withPath request.pathField file r.1,
          Ledger.update ⟨[(file, w.observed file [])], []⟩ r.2)) w₁ := by
  have hread : outcome (Host.document file : ExceptT Error InWorld _) w =
      (.ok (some document), (w.document file).2) := by
    rw [← hdocument]
    rfl
  have hkin : Kin w (w.document file).2 := (Grown.read w file).toKin
  obtain ⟨memo, hadd, hmemo⟩ := add_run hfile (w.document file).2
  rw [hkin.observed_eq] at hadd
  refine ⟨_, hkin.trans hmemo, ?_⟩
  rw [loadFile]
  dsimp only
  rw [storeFor?_eq_none (.inl hs), cached, outcome_bind_of_ok (outcome_pure none w), hrequest]
  dsimp only
  rw [outcome_bind_of_ok hread]
  dsimp only
  rw [outcome_bind_of_ok hadd]
  rfl

theorem resolve_run (document : Tree) (path : FilePath) (o : LoadOptions) (w : World) :
    outcome (s.resolve document path o) w = outcome (s.resolveFor (fun path chain location =>
        s.loadFile w.nodes.length (s.includedRequest o.pathField path chain location))
      (o.request (FilePath.normalize w.directory path) none) document) w := by
  have hnormalize : outcome (Host.normalize path : ExceptT Error InWorld _) w =
      (.ok (FilePath.normalize w.directory path), w) := rfl
  have hbound : outcome (Host.fileBound : ExceptT Error InWorld Nat) w =
      (.ok w.nodes.length, w) := rfl
  rw [resolve, outcome_bind_of_ok hnormalize, outcome_bind_of_ok hbound]

/-- The result of a load of a file, by what is known of the file and by the result of resolving its
document. -/
def ofResolution (field : Option String) (file : FilePath) (record : Record) (r : Tree × Ledger) :
    Tree × Ledger := (withPath field file r.1, ⟨(file, record) :: r.2.records, r.2.missed⟩)

/-- **Two ways in.** Without a cache, the load of a file whose document can be read ends as the
resolution of that document does: with the same error, or with the same tree but for the path of the
file, and with the same ledger behind the record of the file, which the resolution does not have. -/
theorem load_agrees_with_resolve (hs : s.cache = none) (path : FilePath) (o : LoadOptions)
    {document : Tree}
    (hdocument : (w.document (FilePath.normalize w.directory path)).1 = some document) :
    (outcome (s.load path o) w).1 =
        Except.map (ofResolution o.pathField (FilePath.normalize w.directory path)
          (w.observed (FilePath.normalize w.directory path) []))
          (outcome (s.resolve document path o) w).1 ∧
      ∀ t l, (outcome (s.resolve document path o) w).1 = .ok (t, l) →
        Ledger.covers l.records (FilePath.normalize w.directory path) = false := by
  generalize hnormal : FilePath.normalize w.directory path = file at hdocument
  have hfile : file.IsNormal := hnormal ▸ FilePath.isNormal_normalize _ _
  have hpath : (o.request file (s.loadKeys? o)).path = file := rfl
  obtain ⟨w₁, hkin, hload⟩ := load_outcome hs hfile w.nodes.length hpath hdocument
  have hblind : Blind (s.resolveFor (fun path chain location =>
      s.loadFile w.nodes.length (s.includedRequest o.pathField path chain location))
    (o.request file none) document) := blind_resolveFor (fun _ _ => blind_loadFile hs _ _) document
  obtain ⟨_, _, hsame, -⟩ := hblind hkin
  rw [load_run, resolve_run, hnormal, hload]
  -- The keys of the cache have no part in the resolution.
  change (outcome (s.resolveFor (fun path chain location =>
      s.loadFile w.nodes.length (s.includedRequest o.pathField path chain location))
    (o.request file none) document >>= _) w₁).1 = _ ∧ _
  rw [outcome_bind]
  rcases hrun : outcome (s.resolveFor (fun path chain location =>
      s.loadFile w.nodes.length (s.includedRequest o.pathField path chain location))
    (o.request file none) document) w with ⟨r, w₂⟩
  rcases hrun' : outcome (s.resolveFor (fun path chain location =>
      s.loadFile w.nodes.length (s.includedRequest o.pathField path chain location))
    (o.request file none) document) w₁ with ⟨r', w₃⟩
  rw [hrun, hrun'] at hsame
  dsimp only at hsame
  subst hsame
  cases r' with
  | error e => exact ⟨rfl, nofun⟩
  | ok r =>
    obtain ⟨t, l⟩ := r
    have hloads : ∀ other location v t l v', other.IsNormal → other ∉ [file] →
        outcome (s.loadFile w.nodes.length
          (s.includedRequest o.pathField other [file] location)) v = (.ok (t, l), v') →
            Ledger.covers l.records file = false := by
      intro other location v t l v' hother hchain hloaded
      refine unrecorded_of_loadFile hs hother hfile
        (List.mem_append_left _ (List.mem_singleton_self file)) (fun heq => hchain ?_) hloaded
      exact List.mem_singleton.2 heq.symm
    obtain ⟨hunion, hfresh⟩ := unrecorded_of_resolveFor hfile hloads hrun
    refine ⟨?_, fun t' l' heq => ?_⟩
    · have hledger := hunion.update_record (w.observed file []) hfresh
      exact congrArg (fun l => Except.ok (withPath o.pathField file t, l)) hledger
    · cases heq
      exact hfresh

/-! A file that includes another from its own directory, and reuses a section of its own. -/

/-- A world with the two files. -/
def paired : World := .holding
  [(["d"], .directory ⟨0⟩),
    (["d", "root.yml"], .file "_include: part.yml\na:\n  x: 1\nb:\n  _use: a\n".toUTF8 ⟨5⟩),
    (["d", "part.yml"], .file "p: 2\n".toUTF8 ⟨5⟩)]

/-- Every file's path is stored in its tree. -/
def marking : LoadOptions := { LoadOptions.default with pathField := some "src" }

/-- The document of the first file. -/
def pairedDocument : Tree := (paired.document ⟨"/d/root.yml"⟩).1.getD .null

theorem paired_load_agrees :
    (paired.document ⟨"/d/root.yml"⟩).1 = some pairedDocument ∧
    ((outcome (default.load ⟨"d/root.yml"⟩ marking) paired).1 =
        Except.map (ofResolution (some "src") ⟨"/d/root.yml"⟩ (paired.observed ⟨"/d/root.yml"⟩ []))
          (outcome (default.resolve pairedDocument ⟨"d/root.yml"⟩ marking) paired).1 ∧
      ∀ t l, (outcome (default.resolve pairedDocument ⟨"d/root.yml"⟩ marking) paired).1 =
          .ok (t, l) → Ledger.covers l.records ⟨"/d/root.yml"⟩ = false) ∧
    succeeds (default.resolve pairedDocument ⟨"d/root.yml"⟩ marking) paired (fun r _ =>
      r.1.same (.map [(.str "p", .int 2), (.str "src", .str "/d/part.yml"),
        (.str "a", .map [(.str "x", .int 1)]), (.str "b", .map [(.str "x", .int 1)])]) &&
      r.2.records.map Prod.fst == [⟨"/d/part.yml"⟩]) := by
  have hnormal : FilePath.normalize paired.directory ⟨"d/root.yml"⟩ = ⟨"/d/root.yml"⟩ := by
    decide +kernel
  obtain ⟨document, hdocument⟩ := Option.isSome_iff_exists.1
    (show (paired.document ⟨"/d/root.yml"⟩).1.isSome by decide +kernel)
  have hsame : (paired.document ⟨"/d/root.yml"⟩).1 = some pairedDocument := by
    rw [pairedDocument, hdocument, Option.getD_some]
  have hread : (paired.document (FilePath.normalize paired.directory ⟨"d/root.yml"⟩)).1 =
      some pairedDocument := by
    rw [hnormal, hsame]
  have hagree := load_agrees_with_resolve (s := default) rfl ⟨"d/root.yml"⟩ marking hread
  rw [hnormal] at hagree
  exact ⟨hsame, hagree, by decide +kernel⟩

end Settings

end LayeredConfig
