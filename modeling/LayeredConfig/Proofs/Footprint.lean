import LayeredConfig.Load
import LayeredConfig.Proofs.Contract

/-!
# What computations change in a world

`Leaves R x` says that `x` has a result, and that a world and the one that `x` leaves are in the
relation `R`. Keeping a ledger changes only what is remembered of version control; asking the cache
and keeping results in it may change files too, but neither reads a document.
-/

namespace LayeredConfig

variable {α β : Type} {R : World → World → Prop}

/-- A relation of a world to later ones, in which only the notes on version control and the warnings
have changed, or more. -/
structure Noting (R : World → World → Prop) : Prop where
  refl : ∀ w, R w w
  trans : ∀ {w₁ w₂ w₃}, R w₁ w₂ → R w₂ w₃ → R w₁ w₃
  memo : ∀ w memo, R w { w with gitMemo := memo }
  warned : ∀ w warnings, R w { w with warnings := warnings }

/-- A relation of a world to later ones, in which files and directories may have changed too. -/
structure Writing (R : World → World → Prop) : Prop extends Noting R where
  nodes : ∀ w nodes, R w { w with nodes := nodes }

/-- The computation has a result, and the world it leaves is related to the one it began in. -/
def Leaves (R : World → World → Prop) (x : ExceptT Error InWorld α) : Prop :=
  ∀ w, ∃ a w', outcome x w = (.ok a, w') ∧ R w w'

namespace Leaves

/-- The result is the only one, so the world that is left is the related one. -/
theorem related {x : ExceptT Error InWorld α} (h : Leaves R x) ⦃w : World⦄ ⦃a : α⦄ ⦃w' : World⦄
    (hrun : outcome x w = (.ok a, w')) : R w w' := by
  obtain ⟨b, w₁, hrun₁, hR⟩ := h w
  cases hrun.symm.trans hrun₁
  exact hR

theorem pure (hR : Noting R) {a : α} : Leaves R (pure a) :=
  fun w => ⟨a, w, outcome_pure a w, hR.refl w⟩

theorem bind (hR : Noting R) {x : ExceptT Error InWorld α} {f : α → ExceptT Error InWorld β}
    (hx : Leaves R x) (hf : ∀ a, Leaves R (f a)) : Leaves R (x >>= f) := by
  intro w
  obtain ⟨a, w₁, hrun₁, h₁⟩ := hx w
  obtain ⟨b, w₂, hrun₂, h₂⟩ := hf a w₁
  refine ⟨b, w₂, ?_, hR.trans h₁ h₂⟩
  rw [outcome_bind, hrun₁]
  exact hrun₂

theorem lift {x : InWorld α} (h : ∀ w, R w (x.run w).2) : Leaves R (liftM x) :=
  fun w => ⟨_, _, outcome_lift x w, h w⟩

/-- A question to the world. -/
theorem ask (hR : Noting R) (f : World → α) :
    Leaves R (liftM (do return f (← get) : InWorld α)) := lift fun w => hR.refl w

end Leaves

/-- A property of worlds that does not depend on the notes on version control, the warnings and the
documents read. -/
structure Unnoted (K : World → Prop) : Prop where
  memo : ∀ {w}, K w → ∀ memo, K { w with gitMemo := memo }
  warned : ∀ {w}, K w → ∀ warnings, K { w with warnings := warnings }
  parsed : ∀ {w}, K w → ∀ parsed, K { w with parsed := parsed }

/-- The later world has the same record of documents read, and the property if the first has it. -/
theorem Unnoted.noting {K : World → Prop} (hK : Unnoted K) :
    Noting fun w w' => w'.parsed = w.parsed ∧ (K w → K w') where
  refl _ := ⟨rfl, id⟩
  trans h₁ h₂ := ⟨h₂.1.trans h₁.1, fun h => h₂.2 (h₁.2 h)⟩
  memo _ memo := ⟨rfl, fun h => hK.memo h memo⟩
  warned _ warnings := ⟨rfl, fun h => hK.warned h warnings⟩

theorem sameParsed_writing : Writing fun w w' => w'.parsed = w.parsed where
  refl _ := rfl
  trans h₁ h₂ := h₂.trans h₁
  memo _ _ := rfl
  warned _ _ := rfl
  nodes _ _ := rfl

theorem sameTime_writing : Writing fun w w' => w'.now = w.now where
  refl _ := rfl
  trans h₁ h₂ := h₂.trans h₁
  memo _ _ := rfl
  warned _ _ := rfl
  nodes _ _ := rfl

/-- A computation that changes only notes fulfils every contract that promises nothing. -/
theorem Fulfils.of_noting {S : FilePath → Prop} {K : World → Prop} {P : Prop} (hK : Unnoted K)
    {x : ExceptT Error InWorld α} (h : ∀ {R}, Noting R → Leaves R x) :
    Fulfils S K P x fun _ => True :=
  Fulfils.of_unread (fun _ _ _ hrun => ((h hK.noting).related hrun).1)
    fun _ _ _ hrun _ hKw => ⟨trivial, ((h hK.noting).related hrun).2 hKw⟩

/-! ## Worlds with the same files -/

/-- The same files and directories lie at the same places, seen from the same directory. -/
structure SameFiles (w w' : World) : Prop where
  nodes : w'.nodes = w.nodes
  directory : w'.directory = w.directory
  directoryTime : w'.directoryTime = w.directoryTime

namespace SameFiles

variable {w w' : World}

theorem refl (w : World) : SameFiles w w := ⟨rfl, rfl, rfl⟩

theorem symm (h : SameFiles w w') : SameFiles w' w :=
  ⟨h.nodes.symm, h.directory.symm, h.directoryTime.symm⟩

theorem trans {w₁ w₂ w₃ : World} (h₁ : SameFiles w₁ w₂) (h₂ : SameFiles w₂ w₃) :
    SameFiles w₁ w₃ :=
  ⟨h₂.nodes.trans h₁.nodes, h₂.directory.trans h₁.directory,
    h₂.directoryTime.trans h₁.directoryTime⟩

theorem unnoted (w : World) : Unnoted (SameFiles w) where
  memo h _ := ⟨h.nodes, h.directory, h.directoryTime⟩
  warned h _ := ⟨h.nodes, h.directory, h.directoryTime⟩
  parsed h _ := ⟨h.nodes, h.directory, h.directoryTime⟩

theorem walk_eq (h : SameFiles w w') (place : Place) (pieces : List (List Char)) :
    w'.walk place pieces = w.walk place pieces := by
  have hnode : ∀ place, w'.node? place = w.node? place := fun place => by
    rw [World.node?, World.node?, h.nodes, h.directoryTime]
  induction pieces generalizing place with
  | nil => rw [World.walk, World.walk, hnode]
  | cons piece rest ih => simp only [World.walk, hnode, ih]

theorem locate_eq (h : SameFiles w w') (p : FilePath) : w'.locate p = w.locate p := by
  simp only [World.locate, h.directory, h.walk_eq]

theorem find?_eq (h : SameFiles w w') (p : FilePath) : w'.find? p = w.find? p := by
  rw [World.find?, World.find?, h.locate_eq]

theorem content_eq (h : SameFiles w w') (p : FilePath) : w'.content p = w.content p := by
  rw [World.content, World.content, h.locate_eq]

/-- The same document is read. -/
theorem document_eq (h : SameFiles w w') (p : FilePath) :
    (w'.document p).1 = (w.document p).1 := by
  rw [World.document, World.document, h.content_eq]

end SameFiles

section Notes

variable (hR : Noting R)
include hR

/-! ## Questions -/

theorem leaves_status (p : FilePath) : Leaves R (Host.status p) := Leaves.ask hR _

theorem leaves_read (p : FilePath) : Leaves R (Host.read p) := Leaves.ask hR _

theorem leaves_directory : Leaves R Host.directory := Leaves.ask hR _

theorem leaves_fileBound : Leaves R Host.fileBound := Leaves.ask hR _

theorem leaves_program : Leaves R Host.program := Leaves.ask hR _

theorem leaves_token : Leaves R Host.token := Leaves.ask hR _

theorem leaves_gitMemo : Leaves R Host.gitMemo := Leaves.ask hR _

theorem leaves_git (dir : FilePath) (query : GitQuery) : Leaves R (Host.git dir query) :=
  Leaves.ask hR _

theorem leaves_keepGitMemo (memo : GitMemo) : Leaves R (Host.keepGitMemo memo) :=
  Leaves.lift fun w => hR.memo w memo

theorem leaves_warn (text : String) : Leaves R (Host.warn text) :=
  Leaves.lift fun w => hR.warned w _

theorem leaves_normalize (p : FilePath) : Leaves R (Host.normalize p) :=
  (leaves_directory hR).bind hR fun _ => Leaves.pure hR

theorem leaves_isDirectory (p : FilePath) : Leaves R (Host.isDirectory p) :=
  (leaves_status hR p).bind hR fun _ => Leaves.pure hR

theorem leaves_isPresent (p : FilePath) : Leaves R (Host.isPresent p) :=
  (leaves_status hR p).bind hR fun _ => Leaves.pure hR

theorem leaves_modified (p : FilePath) : Leaves R (Host.modified p) :=
  (leaves_status hR p).bind hR fun _ => Leaves.pure hR

theorem leaves_nestingRoom : Leaves R Settings.nestingRoom :=
  (leaves_fileBound hR).bind hR fun _ => Leaves.pure hR

theorem leaves_firstDirectory (dirs : List FilePath) :
    Leaves R (Packages.firstDirectory dirs) := by
  induction dirs with
  | nil => exact Leaves.pure hR
  | cons dir rest ih =>
    refine (leaves_isDirectory hR dir).bind hR fun there => ?_
    cases there with
    | true => exact Leaves.pure hR
    | false => exact ih

theorem leaves_locate (p : Packages) (name : String) : Leaves R (p.locate name) := by
  unfold Packages.locate
  split <;> exact leaves_firstDirectory hR _

theorem leaves_resolve (p : Packages) (name : String) (file : FilePath) :
    Leaves R (p.resolve name file) :=
  (leaves_locate hR p name).bind hR fun _ => Leaves.pure hR

/-! ## Keeping a ledger -/

theorem leaves_gitInfo (path : FilePath) : Leaves R (gitInfo path) := by
  unfold gitInfo
  refine (leaves_status hR path).bind hR fun status => ?_
  extract_lets rest
  have hrest : ∀ real, Leaves R (rest real) := by
    intro real
    unfold rest
    dsimp only
    split
    · exact Leaves.pure hR
    next dir _ =>
      refine (leaves_gitMemo hR).bind hR fun memo => ?_
      refine Leaves.bind hR ?_ fun (info, memo) =>
        (leaves_keepGitMemo hR memo).bind hR fun _ => Leaves.pure hR
      unfold GitMemo.ask
      split
      · exact Leaves.pure hR
      · refine Leaves.bind hR ?_ fun _ => Leaves.pure hR
        refine (leaves_git hR dir .branch).bind hR fun branch => ?_
        split
        · exact Leaves.pure hR
        · exact (leaves_git hR dir _).bind hR fun _ => (leaves_git hR dir _).bind hR fun _ =>
            Leaves.pure hR
  split
  · exact (leaves_normalize hR path).bind hR hrest
  · exact (Leaves.pure hR).bind hR hrest

theorem leaves_observe (path : FilePath) (attributes : Named String) :
    Leaves R (Record.observe path attributes) := by
  unfold Record.observe
  refine (leaves_status hR path).bind hR fun status => ?_
  split
  · exact Leaves.pure hR
  · extract_lets _ rest
    have hrest : ∀ hash, Leaves R (rest hash) := fun hash =>
      (leaves_gitInfo hR path).bind hR fun _ => Leaves.pure hR
    split
    · exact (Leaves.pure hR).bind hR hrest
    · exact (leaves_read hR path).bind hR fun _ => (Leaves.pure hR).bind hR hrest

theorem leaves_track (l : Ledger) (path : FilePath) (mark : Ledger.Mark)
    (attributes : Named String) : Leaves R (l.track path mark attributes) := by
  unfold Ledger.track
  refine (leaves_normalize hR path).bind hR fun path => ?_
  split
  · exact Leaves.pure hR
  · extract_lets rest
    have hrest : ∀ record, Leaves R (rest record) := fun record => Leaves.pure hR
    split
    · exact (leaves_observe hR path attributes).bind hR hrest
    · exact (leaves_normalize hR _).bind hR fun _ => (Leaves.pure hR).bind hR hrest
    · exact (Leaves.pure hR).bind hR hrest

theorem leaves_add (l : Ledger) (path : FilePath) : Leaves R (l.add path) :=
  leaves_track hR l path _ _

/-! ## Changes since a ledger was kept -/

theorem leaves_anyStale (reference : Binary64) (records : List (FilePath × Record)) :
    Leaves R (Ledger.anyStale reference records) := by
  induction records with
  | nil => exact Leaves.pure hR
  | cons e rest ih =>
    obtain ⟨path, record⟩ := e
    refine Leaves.bind hR ?_ fun stale => ?_
    · refine (leaves_modified hR path).bind hR fun modified => ?_
      split <;> exact Leaves.pure hR
    · split
      · exact Leaves.pure hR
      · exact ih

theorem leaves_hasAppeared (packages : Packages) (miss : Missed) :
    Leaves R (Ledger.hasAppeared packages miss) := by
  unfold Ledger.hasAppeared
  extract_lets rest
  have hrest : ∀ target, Leaves R (rest target) := by
    intro target
    unfold rest
    split
    · exact leaves_isPresent hR _
    · exact Leaves.pure hR
  split
  · exact (leaves_resolve hR packages _ _).bind hR hrest
  · exact (Leaves.pure hR).bind hR hrest
  · exact (Leaves.pure hR).bind hR hrest

theorem leaves_anyAppeared (packages : Packages) (missed : List (FilePath × Missed)) :
    Leaves R (Ledger.anyAppeared packages missed) := by
  induction missed with
  | nil => exact Leaves.pure hR
  | cons e rest ih =>
    refine (leaves_hasAppeared hR packages e.2).bind hR fun appeared => ?_
    split
    · exact Leaves.pure hR
    · exact ih

theorem leaves_hasChanged (l : Ledger) (reference : Instant) (packages : Packages) :
    Leaves R (l.hasChanged reference packages) := by
  refine (leaves_anyStale hR _ _).bind hR fun stale => ?_
  split
  · exact Leaves.pure hR
  · exact leaves_anyAppeared hR packages _

end Notes

/-! ## The cache -/

section Cache

variable (hR : Writing R)
include hR

theorem leaves_removeFile (p : FilePath) : Leaves R (Host.removeFile p) :=
  Leaves.lift fun w => by
    change R w (w.removeFile p).2
    unfold World.removeFile
    split
    · exact hR.nodes w _
    all_goals exact hR.refl w

theorem leaves_write (p : FilePath) (bytes : ByteArray) : Leaves R (Host.write p bytes) :=
  Leaves.lift fun w => by
    change R w (w.write p bytes).2
    unfold World.write
    split
    · exact hR.refl w
    · exact hR.nodes w _
    · split
      · exact hR.refl w
      · exact hR.nodes w _
    · exact hR.refl w

theorem leaves_makeDirectory (p : FilePath) : Leaves R (Host.makeDirectory p) :=
  Leaves.lift fun w => by
    change R w (w.makeDirectory p).2
    unfold World.makeDirectory
    split
    · exact hR.refl w
    · exact hR.nodes w _
    · exact hR.refl w

theorem leaves_rename (source target : FilePath) : Leaves R (Host.rename source target) :=
  Leaves.lift fun w => by
    change R w (w.rename source target).2
    unfold World.rename
    split
    all_goals first | exact hR.refl w | exact hR.nodes w _

theorem leaves_makeDirectoriesWithin (depth : Nat) (p : FilePath) :
    Leaves R (Host.makeDirectoriesWithin depth p) := by
  have hthere : ∀ (p : FilePath) (r : Except SystemFault Unit), Leaves R (Host.orThere p r) := by
    intro p r
    unfold Host.orThere
    split
    · exact Leaves.pure hR.toNoting
    · refine (leaves_isDirectory hR.toNoting p).bind hR.toNoting fun there => ?_
      split <;> exact Leaves.pure hR.toNoting
  induction depth generalizing p with
  | zero => exact Leaves.pure hR.toNoting
  | succ depth ih =>
    unfold Host.makeDirectoriesWithin
    split
    · exact Leaves.pure hR.toNoting
    · refine (leaves_makeDirectory hR p).bind hR.toNoting fun made => ?_
      split
      · split
        · exact Leaves.pure hR.toNoting
        next parent _ =>
          refine (ih parent).bind hR.toNoting fun above => ?_
          split
          · exact Leaves.pure hR.toNoting
          · exact (leaves_makeDirectory hR p).bind hR.toNoting fun _ => hthere p _
      · exact hthere p _

theorem leaves_mapM_normalize (paths : List FilePath) :
    Leaves R (paths.mapM Host.normalize) := by
  induction paths with
  | nil => exact Leaves.pure hR.toNoting
  | cons p rest ih =>
    rw [List.mapM_cons]
    exact (leaves_normalize hR.toNoting p).bind hR.toNoting fun _ =>
      ih.bind hR.toNoting fun _ => Leaves.pure hR.toNoting

theorem leaves_keyFor (paths : List FilePath) (settings : List String) :
    Leaves R (Store.keyFor paths settings) :=
  (leaves_directory hR.toNoting).bind hR.toNoting fun _ => Leaves.pure hR.toNoting

theorem leaves_replaceFile (s : Store) (key text : String) : Leaves R (s.replaceFile key text) := by
  refine (leaves_token hR.toNoting).bind hR.toNoting fun token => ?_
  refine (leaves_write hR _ _).bind hR.toNoting fun written => ?_
  split
  · exact Leaves.pure hR.toNoting
  · exact leaves_rename hR _ _

/-- Keeping a result in the cache. -/
theorem leaves_save (s : Store) (paths : List FilePath) (settings : List String) (tree : Tree)
    (ledger : Ledger) : Leaves R (s.save paths settings tree ledger) := by
  unfold Store.save
  refine (leaves_program hR.toNoting).bind hR.toNoting fun program => ?_
  extract_lets rest
  have hrest : ∀ ledger, Leaves R (rest ledger) := by
    intro ledger
    refine (leaves_makeDirectoriesWithin hR _ _).bind hR.toNoting fun made => ?_
    split
    · exact Leaves.pure hR.toNoting
    · refine (leaves_mapM_normalize hR paths).bind hR.toNoting fun inputs => ?_
      dsimp only
      split
      · exact Leaves.pure hR.toNoting
      · refine (leaves_keyFor hR paths settings).bind hR.toNoting fun key => ?_
        refine (leaves_replaceFile hR s key _).bind hR.toNoting fun moved => ?_
        split <;> exact Leaves.pure hR.toNoting
  split
  · exact (leaves_track hR.toNoting _ _ _ _).bind hR.toNoting hrest
  · exact (Leaves.pure hR.toNoting).bind hR.toNoting hrest

/-- Asking the cache for a result. -/
theorem leaves_lookup (s : Store) (paths : List FilePath) (settings : List String) :
    Leaves R (s.lookup paths settings) := by
  have hnewer : ∀ (t : Instant) (ps : List FilePath), Leaves R (Store.noneNewer t ps) := by
    intro t ps
    induction ps with
    | nil => exact Leaves.pure hR.toNoting
    | cons p rest ih =>
      refine (leaves_modified hR.toNoting p).bind hR.toNoting fun modified => ?_
      split
      · split
        · exact ih
        · exact Leaves.pure hR.toNoting
      · exact Leaves.pure hR.toNoting
  have hdiscard : ∀ file, Leaves R (Store.discard file) := fun file =>
    (leaves_removeFile hR file).bind hR.toNoting fun _ => Leaves.pure hR.toNoting
  refine (leaves_isDirectory hR.toNoting s.root).bind hR.toNoting fun there => ?_
  split
  · exact Leaves.pure hR.toNoting
  refine (leaves_keyFor hR paths settings).bind hR.toNoting fun key => ?_
  refine (leaves_modified hR.toNoting _).bind hR.toNoting fun written => ?_
  split
  · exact Leaves.pure hR.toNoting
  next written =>
    refine (hnewer written paths).bind hR.toNoting fun fresh => ?_
    split
    · exact Leaves.pure hR.toNoting
    refine Leaves.bind hR.toNoting ?_ fun entry => ?_
    · refine Leaves.bind hR.toNoting ?_ fun text => ?_
      · refine (leaves_read hR.toNoting _).bind hR.toNoting fun content => ?_
        split
        · exact Leaves.pure hR.toNoting
        · split <;> exact Leaves.pure hR.toNoting
      · split
        · exact Leaves.pure hR.toNoting
        · split <;> exact Leaves.pure hR.toNoting
    · split
      · exact (leaves_warn hR.toNoting _).bind hR.toNoting fun _ =>
          (hdiscard _).bind hR.toNoting fun _ => Leaves.pure hR.toNoting
      · split
        · exact (hdiscard _).bind hR.toNoting fun _ => Leaves.pure hR.toNoting
        · refine (leaves_hasChanged hR.toNoting _ _ _).bind hR.toNoting fun changed => ?_
          split <;> exact Leaves.pure hR.toNoting

theorem leaves_cached (store : Option (Store × List String)) (paths : List FilePath) :
    Leaves R (Settings.cached store paths) := by
  unfold Settings.cached
  split
  · exact leaves_lookup hR _ _ _
  · exact Leaves.pure hR.toNoting

theorem leaves_keep (store : Option (Store × List String)) (paths : List FilePath) (what : String)
    (tree : Tree) (ledger : Ledger) : Leaves R (Settings.keep store paths what tree ledger) := by
  unfold Settings.keep
  split
  · refine (leaves_save hR _ _ _ _ _).bind hR.toNoting fun (ledger, outcome) => ?_
    dsimp only
    split
    · exact Leaves.pure hR.toNoting
    · exact (leaves_warn hR.toNoting _).bind hR.toNoting fun _ => Leaves.pure hR.toNoting
  · exact Leaves.pure hR.toNoting

end Cache

/-! ## Files -/

/-- Keeping a tree does not change it. -/
theorem Settings.keep_fst {store : Option (Store × List String)} {paths : List FilePath}
    {what : String} {tree : Tree} {ledger : Ledger} {w w' : World} {r : Tree × Ledger}
    (h : outcome (Settings.keep store paths what tree ledger) w = (.ok r, w')) : r.1 = tree := by
  unfold Settings.keep at h
  split at h
  · obtain ⟨⟨ledger', result⟩, w₁, -, h⟩ := outcome_bind_ok h
    dsimp only at h
    split at h
    · cases h
      rfl
    · obtain ⟨_, w₂, -, h⟩ := outcome_bind_ok h
      cases h
      rfl
  · cases h
    rfl

/-- A load is one of the file at the path in normal form. -/
theorem Settings.load_run (s : Settings) (path : FilePath) (o : LoadOptions) (w : World) :
    outcome (s.load path o) w = outcome (s.loadFile (w.nodes.length + 1)
      (o.request (FilePath.normalize w.directory path) (s.loadKeys? o))) w := by
  have hnormalize : outcome (Host.normalize path : ExceptT Error InWorld _) w =
      (.ok (FilePath.normalize w.directory path), w) := rfl
  have hbound : outcome (Host.fileBound : ExceptT Error InWorld Nat) w =
      (.ok w.nodes.length, w) := rfl
  rw [load, outcome_bind_of_ok hnormalize, outcome_bind_of_ok hbound]

/-- A file is answered by the cache, or else its document is read and resolved, and the result is
kept. -/
theorem Settings.loadFile_ok {s : Settings} {budget : Nat} {request : Request}
    {result : Tree × Ledger} {w w' : World}
    (h : outcome (s.loadFile (budget + 1) request) w = (.ok result, w')) :
    let store := s.storeFor? request.cacheKeys
    outcome (cached store [request.path]) w = (.ok (some result), w') ∨
    ∃ document added tree consulted, ∃ w₁ w₂ w₃ : World,
      outcome (cached store [request.path]) w = (.ok none, w₁) ∧
      (w₁.document request.path).1 = some document ∧
      outcome (Ledger.empty.add request.path) (w₁.document request.path).2 = (.ok added, w₂) ∧
      outcome (s.resolveFor (fun path chain location =>
          s.loadFile budget (s.includedRequest request.pathField path chain location))
        request document) w₂ = (.ok (tree, consulted), w₃) ∧
      outcome (keep store [request.path] request.path.text
          (withPath request.pathField request.path tree) (added.update consulted)) w₃ =
        (.ok result, w') := by
  unfold loadFile at h
  dsimp only at h
  obtain ⟨answer, w₁, hanswer, hread⟩ := outcome_bind_ok h
  cases answer with
  | some hit =>
    cases hread
    exact .inl hanswer
  | none =>
    obtain ⟨document, w₂, hdocument, hresolve⟩ := outcome_bind_ok hread
    obtain ⟨hthere, hread⟩ := Prod.mk.inj
      (hdocument : (Except.ok (w₁.document request.path).1, (w₁.document request.path).2) = _)
    cases document with
    | none => cases hresolve
    | some document =>
      obtain ⟨added, w₃, hadd, hresolve⟩ := outcome_bind_ok hresolve
      obtain ⟨⟨tree, consulted⟩, w₄, hrun, hkeep⟩ := outcome_bind_ok hresolve
      rw [← hread] at hadd
      exact .inr ⟨document, added, tree, consulted, w₁, w₃, w₄, hanswer, Except.ok.inj hthere, hadd,
        hrun, hkeep⟩

end LayeredConfig
