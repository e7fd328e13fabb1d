import LayeredConfig.Proofs.Alike
import LayeredConfig.Proofs.Path.Parents

/-!
# Loads do not depend on earlier ones

A load leaves warnings, a record of the documents it has read, and answers of version control that
are not asked for again. None of this matters to what is loaded later. `Kin` worlds differ in such
traces only, and a remembered answer is the one that would be given again: directories are asked
about by their normal form, so an answer is kept for one spelling only.

`Blind x` says that a computation ends alike in kin worlds, leaves the same traces in both and
changes nothing else. Without a cache, loading a file is such a computation (`blind_loadFile`).
-/

namespace LayeredConfig

variable {α β : Type} {w w' v v' : World}

theorem FilePath.IsNormal.parent? {p q : FilePath} (h : p.IsNormal) (hq : p.parent? = some q) :
    q.IsNormal := by
  obtain ⟨names, hnames, rfl⟩ := h
  obtain rfl | ⟨front, last, rfl⟩ := List.eq_nil_or_concat' names
  · cases hq
  · have hparent := parent_ofNames hnames
    rw [FilePath.parent, hq] at hparent
    exact ⟨front, fun n hn => hnames n (List.mem_append_left _ hn), hparent⟩

/-! ## What is remembered of version control -/

namespace World

/-- What version control says of a directory when it is asked. -/
def gitAsked (w : World) (dir : FilePath) : Option GitInfo :=
  let answer (query : GitQuery) : Option String :=
    (w.gitAnswers.find? fun e => e.1 == (dir, query)).map Prod.snd
  GitInfo.ofAnswers (answer .branch) (answer .describe) (answer .remotes)

/-- What is known of a directory, which is asked for if it is not remembered. -/
def gitAnswer (w : World) (dir : FilePath) : Option GitInfo :=
  (w.gitMemo.find? dir).getD (w.gitAsked dir)

/-- The directory that version control is asked about for a path. -/
def gitDirectory (w : World) (path : FilePath) : Option FilePath :=
  let real := FilePath.normalize w.directory path
  if w.hasDirectory path then some real else real.parent?

theorem isNormal_gitDirectory {path dir : FilePath} (h : w.gitDirectory path = some dir) :
    dir.IsNormal := by
  have hreal : (FilePath.normalize w.directory path).IsNormal := FilePath.isNormal_normalize _ _
  unfold gitDirectory at h
  dsimp only at h
  split at h
  · exact Option.some.inj h ▸ hreal
  · exact hreal.parent? h

end World

theorem GitMemo.find?_add (memo : GitMemo) (dir dir' : FilePath) (info : Option GitInfo) :
    (memo.add dir info).find? dir' =
      (memo.find? dir').or (if dir.same dir' then some info else none) := by
  rw [GitMemo.find?, GitMemo.find?, GitMemo.add, List.find?_append, Option.map_or,
    List.find?_singleton]
  dsimp only
  split <;> rfl

/-! ## Worlds that differ in what is remembered -/

/-- The worlds have the same files and the same answers of version control, whether these are
remembered or not. -/
structure Kin (w v : World) : Prop extends SameFiles w v where
  asked : v.gitAnswers = w.gitAnswers
  git : ∀ dir : FilePath, dir.IsNormal → v.gitAnswer dir = w.gitAnswer dir

namespace Kin

theorem refl (w : World) : Kin w w := ⟨.refl w, rfl, fun _ _ => rfl⟩

theorem symm (h : Kin w v) : Kin v w :=
  ⟨h.toSameFiles.symm, h.asked.symm, fun dir hdir => (h.git dir hdir).symm⟩

theorem trans (h : Kin w v) (h' : Kin v v') : Kin w v' :=
  ⟨h.toSameFiles.trans h'.toSameFiles, h'.asked.trans h.asked,
    fun dir hdir => (h'.git dir hdir).trans (h.git dir hdir)⟩

theorem gitDirectory_eq (h : Kin w v) (path : FilePath) :
    v.gitDirectory path = w.gitDirectory path := by
  rw [World.gitDirectory, World.gitDirectory, h.directory, h.toSameFiles.hasDirectory_eq]

theorem remember {dir : FilePath} (hdir : dir.IsNormal) (hnone : w.gitMemo.find? dir = none) :
    Kin w { w with gitMemo := w.gitMemo.add dir (w.gitAsked dir) } where
  toSameFiles := ⟨rfl, rfl, rfl⟩
  asked := rfl
  git dir' hdir' := by
    change ((w.gitMemo.add dir (w.gitAsked dir)).find? dir').getD (w.gitAsked dir') =
      (w.gitMemo.find? dir').getD (w.gitAsked dir')
    rw [GitMemo.find?_add]
    by_cases hsame : dir.same dir' = true
    · obtain rfl := (hdir.same_iff hdir').1 hsame
      rw [hnone, if_pos hsame]
      rfl
    · rw [if_neg hsame, Option.or_none]

end Kin

/-- The second world is kin to the first, with more warnings and documents read. -/
structure Grown (warned : List String) (read : List FilePath) (w w' : World) : Prop extends
    Kin w w' where
  warnings : w'.warnings = w.warnings ++ warned
  parsed : w'.parsed = w.parsed ++ read

namespace Grown

theorem refl (w : World) : Grown [] [] w w := ⟨.refl w, by simp, by simp⟩

theorem trans {warned warned' : List String} {read read' : List FilePath}
    (h : Grown warned read w w') (h' : Grown warned' read' w' v) :
    Grown (warned ++ warned') (read ++ read') w v where
  toKin := h.toKin.trans h'.toKin
  warnings := by rw [h'.warnings, h.warnings, List.append_assoc]
  parsed := by rw [h'.parsed, h.parsed, List.append_assoc]

/-- What is remembered of version control is no other trace. -/
theorem memo {memo : GitMemo} (h : Kin w { w with gitMemo := memo }) :
    Grown [] [] w { w with gitMemo := memo } := ⟨h, by simp, by simp⟩

theorem warn (w : World) (text : String) :
    Grown [text] [] w { w with warnings := w.warnings ++ [text] } :=
  ⟨⟨⟨rfl, rfl, rfl⟩, rfl, fun _ _ => rfl⟩, rfl, by simp⟩

theorem read (w : World) (path : FilePath) : Grown [] [path] w (w.document path).2 :=
  ⟨⟨⟨rfl, rfl, rfl⟩, rfl, fun _ _ => rfl⟩, by simp [World.document], rfl⟩

end Grown

/-! ## Asking version control -/

theorem probeGit_run (dir : FilePath) (w : World) :
    outcome (gitInfo.probeGit dir) w = (.ok (w.gitAsked dir), w) := by
  have hgit (query : GitQuery) : outcome (Host.git dir query : ExceptT Error InWorld _) w =
      (.ok ((w.gitAnswers.find? fun e => e.1 == (dir, query)).map Prod.snd), w) := rfl
  rw [gitInfo.probeGit, outcome_bind_of_ok (hgit .branch), World.gitAsked]
  dsimp only
  cases (w.gitAnswers.find? fun e => e.1 == (dir, GitQuery.branch)).map Prod.snd with
  | none => rfl
  | some branch =>
    dsimp only
    rw [outcome_bind_of_ok (hgit .describe), outcome_bind_of_ok (hgit .remotes)]
    rfl

theorem ask_run {dir : FilePath} (hdir : dir.IsNormal) (w : World) :
    ∃ memo, outcome (w.gitMemo.ask dir gitInfo.probeGit : ExceptT Error InWorld _) w =
        (.ok (w.gitAnswer dir, memo), w) ∧ Kin w { w with gitMemo := memo } := by
  rw [GitMemo.ask, World.gitAnswer]
  cases hfind : w.gitMemo.find? dir with
  | some info => exact ⟨w.gitMemo, rfl, .refl w⟩
  | none =>
    dsimp only
    rw [outcome_bind_of_ok (probeGit_run dir w)]
    exact ⟨_, rfl, .remember hdir hfind⟩

/-- Version control is asked about a directory in normal form, and the answer is remembered. -/
theorem gitInfo_run {path : FilePath} (hthere : (w.find? path).isSome) :
    ∃ memo, outcome (gitInfo path) w =
        (.ok ((w.gitDirectory path).bind w.gitAnswer), { w with gitMemo := memo }) ∧
      Kin w { w with gitMemo := memo } := by
  obtain ⟨node, hnode⟩ := Option.isSome_iff_exists.1 hthere
  have hstatus : outcome (Host.status path : ExceptT Error InWorld _) w =
      (.ok (some node.status), w) := by
    change (Except.ok ((w.find? path).map Node.status), w) = _
    rw [hnode]
    rfl
  have hnormalize : outcome (Host.normalize path : ExceptT Error InWorld _) w =
      (.ok (FilePath.normalize w.directory path), w) := rfl
  have hmemo : outcome (Host.gitMemo : ExceptT Error InWorld _) w = (.ok w.gitMemo, w) := rfl
  have hdirectory : w.gitDirectory path = if (some node.status).any (·.isDirectory) = true
      then some (FilePath.normalize w.directory path)
      else (FilePath.normalize w.directory path).parent? := by
    rw [World.gitDirectory, World.hasDirectory, hnode]
    cases node <;> rfl
  rw [gitInfo, outcome_bind_of_ok hstatus]
  dsimp only
  rw [Option.isSome_some, if_pos rfl, outcome_bind_of_ok hnormalize,
    ← hdirectory]
  cases hdir : w.gitDirectory path with
  | none => exact ⟨w.gitMemo, rfl, .refl w⟩
  | some dir =>
    dsimp only
    obtain ⟨memo, hask, hkin⟩ := ask_run (World.isNormal_gitDirectory hdir) w
    rw [outcome_bind_of_ok hmemo, outcome_bind_of_ok hask]
    exact ⟨memo, rfl, hkin⟩

/-! ## Computations that remembered things do not matter to -/

/-- In kin worlds the computation has the same outcome and leaves the same traces. -/
def Blind (x : ExceptT Error InWorld α) : Prop :=
  ∀ ⦃w v⦄, Kin w v → ∃ warned read, (outcome x v).1 = (outcome x w).1 ∧
    Grown warned read w (outcome x w).2 ∧ Grown warned read v (outcome x v).2

namespace Blind

theorem bind {x : ExceptT Error InWorld α} {f : α → ExceptT Error InWorld β} (hx : Blind x)
    (hf : ∀ a, Blind (f a)) : Blind (x >>= f) := by
  intro w v hkin
  obtain ⟨warned, read, hsame, hw, hv⟩ := hx hkin
  rw [outcome_bind, outcome_bind]
  rcases hrun : outcome x w with ⟨r, w₁⟩
  rcases hrun' : outcome x v with ⟨r', v₁⟩
  rw [hrun] at hsame hw
  rw [hrun'] at hsame hv
  dsimp only at hsame
  subst hsame
  cases r' with
  | error e => exact ⟨warned, read, rfl, hw, hv⟩
  | ok a =>
    obtain ⟨warned', read', hrest, hw', hv'⟩ :=
      hf a ((hw.toKin.symm.trans hkin).trans hv.toKin)
    exact ⟨_, _, hrest, hw.trans hw', hv.trans hv'⟩

/-- A computation that at most asks version control, and ends with something in which kin worlds
agree. -/
theorem of_memo {x : ExceptT Error InWorld α} {f : World → Except Error α}
    (hx : ∀ w, ∃ memo, outcome x w = (f w, { w with gitMemo := memo }) ∧
      Kin w { w with gitMemo := memo }) (hf : ∀ {w v}, Kin w v → f v = f w) : Blind x := by
  intro w v hkin
  obtain ⟨memo, hrun, hw⟩ := hx w
  obtain ⟨memo', hrun', hv⟩ := hx v
  rw [hrun, hrun']
  exact ⟨[], [], hf hkin, .memo hw, .memo hv⟩

/-- A question to the world, which kin worlds answer alike. -/
theorem asks {x : ExceptT Error InWorld α} {f : World → Except Error α}
    (hx : ∀ w, outcome x w = (f w, w)) (hf : ∀ {w v}, Kin w v → f v = f w) : Blind x :=
  of_memo (fun w => ⟨w.gitMemo, hx w, .refl w⟩) hf

theorem pure (a : α) : Blind (pure a) := asks (fun _ => rfl) fun _ => rfl

theorem throw (e : Error) : Blind (throw e : ExceptT Error InWorld α) :=
  asks (fun _ => rfl) fun _ => rfl

end Blind

theorem blind_normalize (path : FilePath) : Blind (Host.normalize path) :=
  .asks (f := fun w => .ok (FilePath.normalize w.directory path)) (fun _ => rfl)
    fun h => by rw [h.directory]

theorem blind_fileBound : Blind Host.fileBound :=
  .asks (f := fun w => .ok w.nodes.length) (fun _ => rfl) fun h => by rw [h.nodes]

theorem blind_warn (text : String) : Blind (Host.warn text) :=
  fun w v _ => ⟨[text], [], rfl, .warn w text, .warn v text⟩

theorem blind_document (path : FilePath) : Blind (Host.document path) :=
  fun w v h => ⟨[], [path], congrArg Except.ok (h.toSameFiles.document_eq path), .read w path,
    .read v path⟩

/-! ## Ledgers -/

/-- All that is known of a path. -/
def World.observed (w : World) (path : FilePath) (attributes : Named String) : Record :=
  match w.find? path with
  | none => { Record.blank with missing := true, attributes := attributes }
  | some node =>
    { Record.blank with
      modified := node.modified.epochSeconds
      date := some node.modified.calendarText
      hash := if node.isDirectory then none else (w.content path).toOption.map Sha256.hex
      git := (w.gitDirectory path).bind w.gitAnswer
      attributes := attributes }

theorem observe_run (path : FilePath) (attributes : Named String) (w : World) :
    ∃ memo, outcome (Record.observe path attributes) w =
        (.ok (w.observed path attributes), { w with gitMemo := memo }) ∧
      Kin w { w with gitMemo := memo } := by
  have hstatus : outcome (Host.status path : ExceptT Error InWorld _) w =
      (.ok ((w.find? path).map Node.status), w) := rfl
  have hread : outcome (Host.read path : ExceptT Error InWorld _) w = (.ok (w.content path), w) :=
    rfl
  rw [Record.observe, outcome_bind_of_ok hstatus, World.observed]
  cases hfind : w.find? path with
  | none => exact ⟨w.gitMemo, rfl, .refl w⟩
  | some node =>
    have hthere : (w.find? path).isSome = true := by
      rw [hfind]
      rfl
    obtain ⟨memo, hgit, hkin⟩ := gitInfo_run hthere
    refine ⟨memo, ?_, hkin⟩
    cases node with
    | directory modified =>
      change outcome (gitInfo path >>= fun git => pure _) w = _
      rw [outcome_bind_of_ok hgit]
      rfl
    | file content modified =>
      change outcome (Host.read path >>= fun content => gitInfo path >>= fun git => pure _) w = _
      rw [outcome_bind_of_ok hread, outcome_bind_of_ok hgit]
      rfl

theorem Kin.observed_eq (h : Kin w v) (path : FilePath) (attributes : Named String) :
    v.observed path attributes = w.observed path attributes := by
  have hgit : (v.gitDirectory path).bind v.gitAnswer = (w.gitDirectory path).bind w.gitAnswer := by
    rw [h.gitDirectory_eq]
    cases hdir : w.gitDirectory path with
    | none => rfl
    | some dir => exact h.git dir (World.isNormal_gitDirectory hdir)
  rw [World.observed, World.observed, h.toSameFiles.find?_eq, h.toSameFiles.content_eq, hgit]

theorem blind_observe (path : FilePath) (attributes : Named String) :
    Blind (Record.observe path attributes) :=
  .of_memo (f := fun w => .ok (w.observed path attributes)) (observe_run path attributes)
    fun h => by rw [h.observed_eq]

/-- A new ledger in which all that is known of a path is recorded. -/
theorem add_run {path : FilePath} (hpath : path.IsNormal) (w : World) :
    ∃ memo, outcome (Ledger.empty.add path) w =
        (.ok ⟨[(path, w.observed path [])], []⟩, { w with gitMemo := memo }) ∧
      Kin w { w with gitMemo := memo } := by
  obtain ⟨memo, hobserve, hkin⟩ := observe_run path [] w
  refine ⟨memo, ?_, hkin⟩
  rw [Ledger.add, Ledger.track, outcome_bind_of_ok (Settings.normalize_run hpath w)]
  change outcome (Record.observe path [] >>= fun r => pure _) w = _
  rw [outcome_bind_of_ok hobserve]
  rfl

theorem blind_add (l : Ledger) (path : FilePath) : Blind (l.add path) := by
  unfold Ledger.add Ledger.track
  refine (blind_normalize path).bind fun path => ?_
  split
  · exact .pure _
  · exact (blind_observe path []).bind fun r => .pure _

/-! ## Steps of resolutions -/

/-- A step of a resolution that remembered things do not matter to, whatever has been reached. -/
def BlindStep (x : Resolving InWorld α) : Prop := ∀ p, Blind (x.run p)

namespace BlindStep

theorem bind {x : Resolving InWorld α} {f : α → Resolving InWorld β} (hx : BlindStep x)
    (hf : ∀ a, BlindStep (f a)) : BlindStep (x >>= f) :=
  fun p => (hx p).bind fun r => hf r.1 r.2

theorem still {x : Resolving InWorld α} (hx : Still x) : BlindStep x := by
  intro p
  rcases hx.ends p with ⟨a, p', -, hends⟩ | ⟨e, hends⟩
  · exact .asks hends fun _ => rfl
  · exact .asks hends fun _ => rfl

theorem pure (a : α) : BlindStep (Pure.pure a) := still (.pure a)

theorem lift {x : ExceptT Error InWorld α} (hx : Blind x) :
    BlindStep (liftM x : Resolving InWorld α) := fun _ => hx.bind fun _ => .pure _

end BlindStep

namespace Scope

variable {c : Scope InWorld}

theorem blind_noteMissed (raw : String) (entry : IncludeEntry) (searched : List FilePath) :
    BlindStep (c.noteMissed raw entry searched) := by
  have hmiss (l : Ledger) (path : FilePath) (package : Option String) (file : Option FilePath) :
      BlindStep (l.miss path c.owner package file : Resolving InWorld Ledger) := by
    intro p
    cases package with
    | none =>
      exact .asks (f := fun w => .ok (l.addMissed ⟨FilePath.normalize w.directory path,
        FilePath.normalize w.directory c.owner, none, file⟩, p)) (fun _ => rfl)
        fun h => by rw [h.directory]
    | some package =>
      exact .asks (f := fun w => .ok (l.addMissed ⟨path,
        FilePath.normalize w.directory c.owner, some package, file⟩, p)) (fun _ => rfl)
        fun h => by rw [h.directory]
  have hall (l : Ledger) : BlindStep (searched.foldlM (fun l path =>
      l.miss path c.owner none none) l : Resolving InWorld Ledger) := by
    induction searched generalizing l with
    | nil => exact .pure l
    | cons path rest ih =>
      rw [List.foldlM_cons]
      exact (hmiss l path none none).bind ih
  have hkeep (l : Ledger) : BlindStep (modify fun p => { p with ledger := l }) :=
    fun p => .pure _
  unfold noteMissed
  refine BlindStep.bind (fun p => .pure (p, p)) fun p => ?_
  dsimp only
  cases entry.package with
  | some package => exact (hmiss _ _ _ _).bind hkeep
  | none => exact (hall _).bind hkeep

theorem blind_find (raw : String) (entry : IncludeEntry) (location : String) :
    BlindStep (c.find raw entry location) := by
  have hcandidates : BlindStep (c.candidates entry) := fun p =>
    .asks (candidates_run entry p) fun h => by rw [h.toSameFiles.places_eq]
  have hfirst (paths : List FilePath) : BlindStep (firstFile paths) := fun p =>
    .asks (firstFile_run paths p) fun h => by rw [h.toSameFiles.hasFile_eq]
  have hnormalize (file : FilePath) : BlindStep (Host.normalize file) := fun p =>
    .asks (f := fun w => .ok (FilePath.normalize w.directory file, p)) (fun _ => rfl)
      fun h => by rw [h.directory]
  have hwarn (text : String) : BlindStep (Host.warn text) := fun p w v _ =>
    ⟨[text], [], rfl, .warn w text, .warn v text⟩
  have hmissed (searched : List FilePath) : BlindStep (do
      c.noteMissed raw entry searched
      return none : Resolving InWorld (Option FilePath)) :=
    (blind_noteMissed raw entry searched).bind fun _ => .pure none
  unfold find
  refine hcandidates.bind fun searched => (hfirst searched).bind fun file => ?_
  cases file with
  | some file => exact (hnormalize file).bind fun _ => .pure _
  | none =>
    dsimp only
    split
    · split
      · exact (hwarn _).bind fun _ => hmissed searched
      · exact hmissed searched
    · split
      · exact .still Still.fail
      · exact .still Still.fail

theorem blind_includeFile {file : FilePath} {location : String}
    (hload : Blind (c.load file c.chain location)) (f : Flattening) (merged : Tree) :
    BlindStep (c.includeFile f location merged file) := by
  unfold includeFile
  split
  · exact .still Still.fail
  · refine (BlindStep.lift hload).bind fun r => ?_
    refine BlindStep.bind (fun p => .pure _) fun _ => ?_
    dsimp only
    split
    · exact .still Still.fail
    · exact .pure _

/-- Remembered things do not matter to the resolution of a document, if they do not matter to the
loads of included files. -/
theorem blind_document (hload : ∀ file location, Blind (c.load file c.chain location))
    (location : String) (position : Position) (document : Tree) :
    BlindStep (c.resolveDocument location position document) := by
  have hparallel : c.Parallel (fun _ _ _ _ => []) c.settings c.load 0 (fun _ _ _ _ => [])
      fun {_} x _ => BlindStep x.plain := {
    bind := fun hx hf => hx.bind hf
    still := fun hx => .still hx
    all := by
      intro f location merged raws
      rw [tellAll_plain]
      induction raws generalizing merged with
      | nil => exact .pure merged
      | cons raw rest ih =>
        unfold includeAll
        refine (BlindStep.still (Still.orFail _)).bind fun entry => ?_
        refine (blind_find raw entry location).bind fun found => ?_
        cases found with
        | none => exact ih merged
        | some file => exact (blind_includeFile (hload file location) f merged).bind ih
    spent := fun h => absurd rfl h }
  have hplain := hparallel.document location position document
  rwa [tellDocument_plain] at hplain

end Scope

/-! ## Loads -/

namespace Settings

variable {s : Settings}

theorem blind_resolveFor {load : FilePath → List FilePath → String →
      ExceptT Error InWorld (Tree × Ledger)} {request : Request}
    (hload : ∀ file location, Blind (load file request.chain location)) (document : Tree) :
    Blind (s.resolveFor load request document) := by
  have hroom : Blind nestingRoom := blind_fileBound.bind fun _ => .pure _
  unfold resolveFor
  refine hroom.bind fun room => Blind.bind ?_ fun r => .pure _
  exact Scope.blind_document (c := s.scope load request room) hload _ _ document _

/-- Without a cache, remembered things do not matter to the load of a file. -/
theorem blind_loadFile (hs : s.cache = none) (budget : Nat) (request : Request) :
    Blind (s.loadFile budget request) := by
  induction budget generalizing request with
  | zero => exact .throw _
  | succ budget ih =>
    unfold loadFile
    dsimp only
    rw [storeFor?_eq_none (.inl hs)]
    refine (Blind.pure none).bind fun hit => ?_
    cases hit with
    | some hit => exact .pure hit
    | none =>
      refine (LayeredConfig.blind_document request.path).bind fun document => ?_
      cases document with
      | none => exact .throw _
      | some document =>
        refine (blind_add .empty request.path).bind fun ledger => ?_
        refine (blind_resolveFor (fun file location => ih _) document).bind fun r => ?_
        exact .pure _

theorem blind_load (hs : s.cache = none) (path : FilePath) (o : LoadOptions) :
    Blind (s.load path o) := by
  unfold load
  refine (blind_normalize path).bind fun path => blind_fileBound.bind fun bound => ?_
  exact blind_loadFile hs _ _

end Settings

end LayeredConfig
