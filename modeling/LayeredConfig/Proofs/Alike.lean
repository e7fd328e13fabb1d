import LayeredConfig.Proofs.Expansion
import LayeredConfig.Proofs.Following
import LayeredConfig.Proofs.Parallel

/-!
# Loaders that find the same files

Loaders with different settings do the same as long as they look for files at the same places and
included files are loaded alike by both (`alike_follow`). `Alike K P x y` says of two computations
that they do the same in worlds with the property `K`, unless an entry is met that is not in `P`.
Here `K` is kept by failures too: what has been done to the files by then is done.

Without a cache, settings matter only for where files are looked for (`alike_of_places`). A loader
with a cache that is told not to use it does what it does without one, as long as no file is
included.
-/

namespace LayeredConfig

variable {α β : Type}

/-- The computations end alike, meet the same entries and keep `K`, unless an entry is met that is
not in `P`. -/
def Alike (K : World → Prop) (P : Meeting → Prop) (x y : Telling α) : Prop :=
  ∀ w, K w → (∀ m ∈ x.meets w, P m) →
    outcome y.run w = outcome x.run w ∧ y.meets w = x.meets w ∧ K (outcome x.run w).2

namespace Alike

variable {K : World → Prop} {P : Meeting → Prop} {x y : Telling α} {f g : α → Telling β}

/-- What follows need be alike only after a result of the first part. -/
theorem bind_of_ok (hx : Alike K P x y) (hf : ∀ a w w₁, K w → (∀ m ∈ x.meets w, P m) →
      outcome x.run w = (.ok a, w₁) → Alike K P (f a) (g a)) : Alike K P (x >>= f) (y >>= g) := by
  intro w hK hmeets
  have hmeets' : ∀ m ∈ x.meets w, P m := fun m hm => hmeets m (List.mem_append_left _ hm)
  obtain ⟨hrun, hsame, hleft⟩ := hx w hK hmeets'
  rw [Telling.run_bind, Telling.run_bind, outcome_bind, outcome_bind, hrun]
  change _ ∧ y.meets w ++ Telling.after y.run _ w = x.meets w ++ Telling.after x.run _ w ∧ _
  have hmeets₂ : ∀ m ∈ Telling.after x.run (fun a => (f a).meets) w, P m :=
    fun m hm => hmeets m (List.mem_append_right _ hm)
  unfold Telling.after at hmeets₂ ⊢
  rw [hsame, hrun]
  rcases hx : outcome x.run w with ⟨e | a, w₁⟩
  · rw [hx] at hleft
    exact ⟨rfl, rfl, hleft⟩
  · rw [hx] at hleft hmeets₂
    obtain ⟨hrest, hagain, hkept⟩ := hf a w w₁ hK hmeets' hx w₁ hleft hmeets₂
    exact ⟨hrest, congrArg _ hagain, hkept⟩

theorem bind (hx : Alike K P x y) (hf : ∀ a, Alike K P (f a) (g a)) :
    Alike K P (x >>= f) (y >>= g) := hx.bind_of_ok fun a _ _ _ _ _ => hf a

/-- What meets nothing and keeps `K` is like itself. -/
theorem quiet {x : ExceptT Error InWorld α} (h : ∀ w, K w → K (outcome x w).2) :
    Alike K P (Telling.quiet x) (Telling.quiet x) := fun w hK _ => ⟨rfl, rfl, h w hK⟩

theorem pure (a : α) : Alike K P (pure a) (pure a) := fun _ hK _ => ⟨rfl, rfl, hK⟩

theorem throw (e : Error) : Alike K P (Telling.quiet (throw e) : Telling α)
    (Telling.quiet (throw e)) := fun _ hK _ => ⟨rfl, rfl, hK⟩

/-- A computation that only takes notes. -/
theorem note (hK : Unnoted K) {x : ExceptT Error InWorld α}
    (h : ∀ {R}, Noting R → Leaves R x) : Alike K P (Telling.quiet x) (Telling.quiet x) := by
  refine quiet fun w hKw => ?_
  obtain ⟨a, w', hrun, -, hkept⟩ := h hK.noting w
  rw [hrun]
  exact hkept hKw

end Alike

/-! ## Resolutions -/

namespace Scope

variable {c : Scope InWorld}

theorem noteMissed_ends (raw : String) (entry : IncludeEntry) (searched : List FilePath)
    (p : Progress) (w : World) :
    ∃ l, outcome ((c.noteMissed raw entry searched).run p) w =
      (.ok ((), { p with ledger := l }), w) := by
  have hmiss : ∀ (l : Ledger) (place : FilePath) (package : Option String) (file : Option FilePath),
      ∃ l', outcome ((l.miss place c.owner package file : Resolving InWorld Ledger).run p) w =
        (.ok (l', p), w) := by
    intro l place package file
    cases package with
    | none => exact ⟨_, rfl⟩
    | some package => exact ⟨_, rfl⟩
  have hdone : ∀ {x : Resolving InWorld Ledger} {l : Ledger},
      outcome (x.run p) w = (.ok (l, p), w) →
      outcome ((x >>= fun ledger => modify fun q => { q with ledger := ledger }).run p) w =
        (.ok ((), { p with ledger := l }), w) := by
    intro x l hx
    rw [StateT.run_bind, outcome_bind_of_ok hx]
    rfl
  unfold noteMissed
  cases entry.package with
  | some package =>
    obtain ⟨l, hl⟩ := hmiss p.ledger ⟨raw⟩ (some package) (some ⟨entry.path⟩)
    exact ⟨_, hdone hl⟩
  | none =>
    have hall : ∀ l : Ledger, ∃ l', outcome ((searched.foldlM (fun l place =>
        l.miss place c.owner none none) l : Resolving InWorld Ledger).run p) w =
          (.ok (l', p), w) := by
      induction searched with
      | nil => exact fun l => ⟨l, rfl⟩
      | cons place rest ih =>
        intro l
        obtain ⟨l', hl'⟩ := hmiss l place none none
        rw [List.foldlM_cons, StateT.run_bind, outcome_bind_of_ok hl']
        exact ih l'
    obtain ⟨l, hl⟩ := hall p.ledger
    exact ⟨_, hdone hl⟩

/-- Why a search that finds nothing fails. -/
def unfound (c : Scope InWorld) (w : World) (raw : String) (entry : IncludeEntry) : Unresolved :=
  let searched := c.settings.places w c.owner entry
  if searched.isEmpty then .noPackage raw (entry.package.getD "") else .notFound raw searched

/-- How a search ends. For an optional file that is missing, it is noted and perhaps warned. -/
theorem find_ends (raw : String) (entry : IncludeEntry) (location : String) (p : Progress)
    (w : World) : ∃ l warnings, outcome ((c.find raw entry location).run p) w =
      match (c.settings.places w c.owner entry).find? w.hasFile with
      | some place => (.ok (some (FilePath.normalize w.directory place), p), w)
      | none =>
        if entry.optional then
          (.ok (none, { p with ledger := l }), { w with warnings := warnings })
        else (.error (.unresolved c.owner location (c.unfound w raw entry)), w) := by
  rw [find, StateT.run_bind, outcome_bind_of_ok (candidates_run entry p w), StateT.run_bind,
    outcome_bind_of_ok (firstFile_run _ p w)]
  have hnoted : ∀ (searched : List FilePath) (w : World), ∃ l, outcome ((do
      c.noteMissed raw entry searched
      return none : Resolving InWorld (Option FilePath)).run p) w =
        (.ok (none, { p with ledger := l }), w) := by
    intro searched w
    obtain ⟨l, hl⟩ := c.noteMissed_ends raw entry searched p w
    refine ⟨l, ?_⟩
    rw [StateT.run_bind, outcome_bind_of_ok hl]
    rfl
  cases (c.settings.places w c.owner entry).find? w.hasFile with
  | some file => exact ⟨p.ledger, w.warnings, rfl⟩
  | none =>
    dsimp only
    split
    · split
      · obtain ⟨l, hl⟩ := hnoted (c.settings.places w c.owner entry) { w with
          warnings := w.warnings ++ [c.owner.text ++ ": optional include '" ++ raw ++ "' not found"] }
        exact ⟨l, _, hl⟩
      · obtain ⟨l, hl⟩ := hnoted (c.settings.places w c.owner entry) w
        exact ⟨l, w.warnings, hl⟩
    · refine ⟨p.ledger, w.warnings, ?_⟩
      unfold unfound
      dsimp only
      split
      · rfl
      · rfl

/-- The search for an entry may warn, and changes nothing else. -/
theorem find_left (raw : String) (entry : IncludeEntry) (location : String) (p : Progress)
    (w : World) : ∃ warnings, (outcome ((c.find raw entry location).run p) w).2 =
      { w with warnings := warnings } := by
  obtain ⟨l, warnings, hends⟩ := c.find_ends raw entry location p w
  rw [hends]
  split
  · exact ⟨w.warnings, rfl⟩
  · split
    · exact ⟨warnings, rfl⟩
    · exact ⟨w.warnings, rfl⟩

/-- A search fails only because nothing is found. -/
theorem find_error {raw : String} {entry : IncludeEntry} {location : String} {p : Progress}
    {w w' : World} {e : Error}
    (hrun : outcome ((c.find raw entry location).run p) w = (.error e, w')) :
    e = .unresolved c.owner location (.noPackage raw (entry.package.getD "")) ∨
      ∃ searched, e = .unresolved c.owner location (.notFound raw searched) := by
  obtain ⟨l, warnings, hends⟩ := c.find_ends raw entry location p w
  rw [hends] at hrun
  split at hrun
  · cases hrun
  · split at hrun
    · cases hrun
    · cases hrun
      unfold unfound
      dsimp only
      split
      · exact .inl rfl
      · exact .inr ⟨_, rfl⟩

/-- What is done with a file that is included: it is loaded and merged. -/
theorem includeFile_run (f : Flattening) (location : String) (merged : Tree) (file : FilePath)
    (p : Progress) (w : World) :
    outcome ((c.includeFile f location merged file).run p) w =
      if c.chain.contains file then
        (.error (.unresolved c.owner location (.cycle (c.chain ++ [file]))), w)
      else match outcome (c.load file c.chain location) w with
        | (.ok (tree, ledger), w') =>
          if tree.isMapping then (.ok (merged.merge (tree.flatten f.separator f.depth),
            { p with ledger := p.ledger.update ledger }), w')
          else (.error (.unresolved c.owner location (.notMapping file)), w')
        | (.error e, w') => (.error e, w') := by
  unfold includeFile
  split
  · rfl
  · rcases hloaded : outcome (c.load file c.chain location) w with ⟨e | ⟨tree, ledger⟩, w₁⟩
    · have hlifted : outcome ((liftM (c.load file c.chain location) :
          Resolving InWorld (Tree × Ledger)).run p) w = (.error e, w₁) :=
        outcome_bind_of_error hloaded _
      rw [StateT.run_bind, outcome_bind_of_error hlifted]
    · have hlifted : outcome ((liftM (c.load file c.chain location) :
          Resolving InWorld (Tree × Ledger)).run p) w = (.ok ((tree, ledger), p), w₁) :=
        outcome_bind_of_ok hloaded _
      rw [StateT.run_bind, outcome_bind_of_ok hlifted]
      dsimp only
      cases tree.isMapping with
      | true => rfl
      | false => rfl

theorem alike_still {K : World → Prop} {P : Meeting → Prop} {x : Resolving InWorld α}
    (hx : Still x) (p : Progress) :
    Alike K P ((Relating.quiet x).run p) ((Relating.quiet x).run p) := by
  refine Alike.quiet fun w hw => ?_
  rcases hx.ends p with ⟨a, p', -, hends⟩ | ⟨e, hends⟩
  · rw [hends]
    exact hw
  · rw [hends]
    exact hw

section Told

variable {K : World → Prop} {P : Meeting → Prop} (hK : Unnoted K) {settings : Settings}
  {load : FilePath → List FilePath → String → ExceptT Error InWorld (Tree × Ledger)}
  {heard heard' : FilePath → List FilePath → String → World → List Meeting}
  (hplaces : ∀ w, K w → ∀ entry,
    settings.places w c.owner entry = c.settings.places w c.owner entry)
include hK hplaces

theorem alike_find (raw : String) (entry : IncludeEntry) (location : String) (p : Progress) :
    Alike K P ((c.tellFind raw entry location).run p)
      (((c.told settings load 0).tellFind raw entry location).run p) := by
  intro w hw _
  refine ⟨?_, ?_, ?_⟩
  · change outcome (((c.told settings load 0).find raw entry location).run p) w =
      outcome ((c.find raw entry location).run p) w
    have hsame : (c.told settings load 0).settings.places w (c.told settings load 0).owner entry =
        c.settings.places w c.owner entry := hplaces w hw entry
    rw [find, find, StateT.run_bind, StateT.run_bind, outcome_bind_of_ok (candidates_run entry p w),
      outcome_bind_of_ok (candidates_run entry p w), hsame]
    rfl
  · change [settings.meeting w c.owner raw entry] = [c.settings.meeting w c.owner raw entry]
    rw [Settings.meeting, Settings.meeting, hplaces w hw]
  · obtain ⟨warnings, hleft⟩ := c.find_left raw entry location p w
    change K (outcome ((c.find raw entry location).run p) w).2
    rw [hleft]
    exact hK.warned hw warnings

omit hK hplaces in
/-- What is done with a loaded file changes nothing in the world. -/
theorem alike_include {file : FilePath} {location : String}
    (hload : Alike K P ⟨c.load file c.chain location, heard file c.chain location⟩
      ⟨load file c.chain location, heard' file c.chain location⟩)
    (f : Flattening) (merged : Tree) (p : Progress) :
    Alike K P ((c.tellInclude heard f location merged file).run p)
      (((c.told settings load 0).tellInclude heard' f location merged file).run p) := by
  intro w hw hmeets
  obtain ⟨hrun, hsame, hleft⟩ := hload w hw hmeets
  suffices hends : outcome (((c.told settings load 0).includeFile f location merged file).run p) w =
      outcome ((c.includeFile f location merged file).run p) w ∧
        K (outcome ((c.includeFile f location merged file).run p) w).2 from
    ⟨hends.1, hsame, hends.2⟩
  have htold : outcome ((c.told settings load 0).load file (c.told settings load 0).chain
      location) w = outcome (c.load file c.chain location) w := hrun
  rw [includeFile_run, includeFile_run, htold]
  refine ⟨rfl, ?_⟩
  dsimp only at hleft
  split
  · exact hw
  · rcases hloaded : outcome (c.load file c.chain location) w with ⟨e | r, w₁⟩
    · rw [hloaded] at hleft
      exact hleft
    · rw [hloaded] at hleft
      dsimp only
      split
      · exact hleft
      · exact hleft

theorem alike_all (hload : ∀ m file, P m → m.found = some file → ∀ location,
      Alike K P ⟨c.load file c.chain location, heard file c.chain location⟩
        ⟨load file c.chain location, heard' file c.chain location⟩)
    (f : Flattening) (location : String) (merged : Tree) (raws : List String) (p : Progress) :
    Alike K P ((c.tellAll heard f location merged raws).run p)
      (((c.told settings load 0).tellAll heard' f location merged raws).run p) := by
  induction raws generalizing merged p with
  | nil => exact Alike.pure (merged, p)
  | cons raw rest ih =>
    unfold tellAll
    refine Alike.bind (alike_still (Still.orFail _) p) fun r => ?_
    refine Alike.bind_of_ok (alike_find hK hplaces raw r.1 location r.2)
      fun found w w₁ hw hmeets hfind => ?_
    obtain ⟨found, p₁⟩ := found
    cases found with
    | none => exact ih merged p₁
    | some file =>
      have hfound : (c.settings.meeting w c.owner raw r.1).found = some file :=
        (found_of_find hfind).symm
      have hmet : P (c.settings.meeting w c.owner raw r.1) := hmeets _ List.mem_cons_self
      refine Alike.bind (alike_include (hload _ file hmet hfound location) f merged p₁) fun r => ?_
      exact ih r.1 r.2

/-- Resolutions are alike if files are looked for at the same places, and the loads of the files
that are found are alike. -/
theorem alike_document (hload : ∀ m file, P m → m.found = some file → ∀ location,
      Alike K P ⟨c.load file c.chain location, heard file c.chain location⟩
        ⟨load file c.chain location, heard' file c.chain location⟩)
    (location : String) (position : Position) (document : Tree) (p : Progress) :
    Alike K P ((c.tellDocument heard location position document).run p)
      (((c.told settings load 0).tellDocument heard' location position document).run p) := by
  have hparallel : c.Parallel heard settings load 0 heard'
      fun {_} x y => ∀ p, Alike K P (x.run p) (y.run p) := {
    bind := fun hx hf p => (hx p).bind fun r => hf r.1 r.2
    still := fun hx p => alike_still hx p
    all := fun f location merged raws p => alike_all hK hplaces hload f location merged raws p
    spent := fun h => absurd rfl h }
  exact hparallel.document location position document p

end Told

end Scope

/-! ## Tasks -/

/-- The task is to be done without the cache. -/
def Task.Uncached : Task → Prop
  | .load _ o => o.useCache = false
  | .resolve _ _ _ => True
  | .nested _ o => o.useCache = false
  | .pattern _ o => o.useCache = false

namespace Settings

theorem storeFor?_eq_none {s : Settings} {keys : Option (List String)}
    (h : s.cache = none ∨ keys = none) : s.storeFor? keys = none := by
  rcases h with h | rfl
  · rw [storeFor?, store?, h]
    rfl
  · rw [storeFor?]
    cases s.store? <;> rfl

variable {K : World → Prop} {P : Meeting → Prop} (hK : Unnoted K) {s s' : Settings}
  {wanted : List (FilePath × String)}
  (hplaces : ∀ w, K w → ∀ owner entry, s'.places w owner entry = s.places w owner entry)
include hK hplaces

theorem alike_resolve {load load' : FilePath → List FilePath → String →
      ExceptT Error InWorld (Tree × Ledger)}
    {heard heard' : FilePath → List FilePath → String → World → List Meeting} {request : Request}
    (hload : ∀ m file, P m → m.found = some file → ∀ location,
      Alike K P ⟨load file request.chain location, heard file request.chain location⟩
        ⟨load' file request.chain location, heard' file request.chain location⟩)
    (document : Tree) :
    Alike K P (s.tellResolve load heard request document)
      (s'.tellResolve load' heard' request document) := by
  unfold tellResolve
  refine Alike.bind (.note hK fun hR => leaves_nestingRoom hR) fun room => ?_
  have hdocument := Scope.alike_document (c := s.scope load request room) (P := P) hK
    (fun w hw => hplaces w hw request.path) hload request.location request.position document
    ⟨request.sourcesWith document, Ledger.empty⟩
  exact Alike.bind hdocument fun r => Alike.pure (r.1, r.2.ledger)

/-- How the included files of loads are loaded. -/
abbrev IncludedAlike (K : World → Prop) (P : Meeting → Prop) (s s' : Settings)
    (wanted : List (FilePath × String)) (budget : Nat) : Prop :=
  ∀ m file, P m → m.found = some file → ∀ pathField chain location,
    Alike K P (s.followFile wanted budget (s.includedRequest pathField file chain location))
      (s'.followFile wanted budget (s'.includedRequest pathField file chain location))

omit hK hplaces in
theorem alike_loaded {budget : Nat} {r r' : Request}
    (h : Alike K P (s.followFile wanted budget r) (s'.followFile wanted budget r')) :
    Alike K P ⟨s.loadFile budget r, (s.followFile wanted budget r).meets⟩
      ⟨s'.loadFile budget r', (s'.followFile wanted budget r').meets⟩ := by
  have hs : (s.followFile wanted budget r).run = s.loadFile budget r := followFile_run budget r
  have hs' : (s'.followFile wanted budget r').run = s'.loadFile budget r' :=
    followFile_run budget r'
  rw [← hs, ← hs']
  exact h

omit hK hplaces in
theorem alike_cached (paths : List FilePath) :
    Alike K P (s.followCached wanted none paths) (s'.followCached wanted none paths) :=
  fun _ hw _ => ⟨rfl, rfl, hw⟩

theorem alike_file {budget : Nat} (hincluded : IncludedAlike K P s s' wanted budget)
    {request : Request} {keys : Option (List String)}
    (hs : s.storeFor? request.cacheKeys = none) (hs' : s'.storeFor? keys = none) :
    Alike K P (s.followFile wanted (budget + 1) request)
      (s'.followFile wanted (budget + 1) { request with cacheKeys := keys }) := by
  rw [followFile, followFile]
  dsimp only
  rw [hs, hs']
  refine Alike.bind (alike_cached _) fun hit => ?_
  cases hit with
  | some hit => exact Alike.pure hit
  | none =>
    refine Alike.bind ?_ fun document => ?_
    · exact Alike.quiet fun w hw => hK.parsed hw _
    · cases document with
      | none => exact Alike.throw _
      | some document =>
        refine Alike.bind (.note hK fun hR => leaves_add hR _ _) fun ledger => ?_
        refine Alike.bind ?_ fun r => Alike.quiet fun w hw => hw
        refine alike_resolve hK hplaces ?_ document
        intro m file hm hfound location
        exact alike_loaded (hincluded m file hm hfound request.pathField request.chain location)

section Tasks

variable (hincluded : ∀ budget, IncludedAlike K P s s' wanted budget)
include hincluded

theorem alike_load {path : FilePath} {o : LoadOptions} (hs : s.storeFor? (s.loadKeys? o) = none)
    (hs' : s'.storeFor? (s'.loadKeys? o) = none) :
    Alike K P (s.followLoad wanted path o) (s'.followLoad wanted path o) := by
  unfold followLoad
  refine Alike.bind (.note hK fun hR => leaves_normalize hR path) fun path => ?_
  refine Alike.bind (.note hK fun hR => leaves_fileBound hR) fun bound => ?_
  exact alike_file hK hplaces (hincluded bound) hs hs'

theorem alike_resolution (document : Tree) (owner : FilePath) (o : LoadOptions) :
    Alike K P (s.followResolve wanted document owner o)
      (s'.followResolve wanted document owner o) := by
  unfold followResolve
  refine Alike.bind (.note hK fun hR => leaves_normalize hR owner) fun owner => ?_
  refine Alike.bind (.note hK fun hR => leaves_fileBound hR) fun budget => ?_
  refine alike_resolve hK hplaces ?_ document
  intro m file hm hfound location
  exact alike_loaded (hincluded budget m file hm hfound o.pathField
    (o.request owner none).chain location)

section Nested

variable {o : NestedOptions} (hs : s.storeFor? (s.loadKeys? o.forFile) = none)
  (hs' : s'.storeFor? (s'.loadKeys? o.forFile) = none)
include hs hs'

theorem alike_section (file : FilePath) :
    Alike K P (s.followSection wanted o file) (s'.followSection wanted o file) := by
  unfold followSection
  refine Alike.bind (alike_load hK hplaces hincluded hs hs') fun r => ?_
  dsimp only
  split
  · exact Alike.pure _
  · split
    · exact Alike.pure _
    · exact Alike.throw _

theorem alike_assembly (sections : List FileSection) (ledger : Ledger) (files : List FilePath) :
    Alike K P (s.followAssembly wanted o sections ledger files)
      (s'.followAssembly wanted o sections ledger files) := by
  induction files generalizing sections ledger with
  | nil => exact Alike.pure (sections, ledger)
  | cons file rest ih =>
    unfold followAssembly
    refine Alike.bind (alike_section hK hplaces hincluded hs hs' file) fun r => ?_
    dsimp only
    split
    · exact Alike.bind (.note hK fun hR => leaves_warn hR _) fun _ => ih _ _
    · exact ih _ _

theorem alike_nested (files : List FilePath) (hstore : s.storeFor? (s.nestedKeys? o) = none)
    (hstore' : s'.storeFor? (s'.nestedKeys? o) = none) :
    Alike K P (s.followNested wanted files o) (s'.followNested wanted files o) := by
  unfold followNested
  refine Alike.bind (.note hK fun hR => Leaves.mapM hR (leaves_normalize hR) files) fun files => ?_
  dsimp only
  rw [hstore, hstore']
  refine Alike.bind (alike_cached files) fun hit => ?_
  cases hit with
  | some hit => exact Alike.pure hit
  | none =>
    refine Alike.bind (alike_assembly hK hplaces hincluded hs hs' [] Ledger.empty files) fun r => ?_
    exact Alike.quiet fun w hw => hw

end Nested

/-- What is done without a cache is done alike, if the loads of the files that are included are. -/
theorem alike_follow {task : Task} (huncached : s.cache = none ∧ s'.cache = none ∨ task.Uncached) :
    Alike K P (s.follow wanted task) (s'.follow wanted task) := by
  have hload : ∀ {o : LoadOptions}, (s.cache = none ∧ s'.cache = none ∨ o.useCache = false) →
      s.storeFor? (s.loadKeys? o) = none ∧ s'.storeFor? (s'.loadKeys? o) = none := by
    rintro o (⟨hs, hs'⟩ | h)
    · exact ⟨storeFor?_eq_none (.inl hs), storeFor?_eq_none (.inl hs')⟩
    · have hkeys : ∀ s : Settings, s.loadKeys? o = none := fun s => by rw [loadKeys?, h]; rfl
      exact ⟨storeFor?_eq_none (.inr (hkeys s)), storeFor?_eq_none (.inr (hkeys s'))⟩
  have hnested : ∀ {o : NestedOptions}, (s.cache = none ∧ s'.cache = none ∨ o.useCache = false) →
      s.storeFor? (s.nestedKeys? o) = none ∧ s'.storeFor? (s'.nestedKeys? o) = none := by
    rintro o (⟨hs, hs'⟩ | h)
    · exact ⟨storeFor?_eq_none (.inl hs), storeFor?_eq_none (.inl hs')⟩
    · have hkeys : ∀ s : Settings, s.nestedKeys? o = none := fun s => by rw [nestedKeys?, h]; rfl
      exact ⟨storeFor?_eq_none (.inr (hkeys s)), storeFor?_eq_none (.inr (hkeys s'))⟩
  cases task with
  | load path o =>
    obtain ⟨hs, hs'⟩ := hload huncached
    exact alike_load hK hplaces hincluded hs hs'
  | resolve document owner o => exact alike_resolution hK hplaces hincluded document owner o
  | nested files o =>
    obtain ⟨hs, hs'⟩ := hload (o := o.forFile) huncached
    obtain ⟨hstore, hstore'⟩ := hnested huncached
    exact alike_nested hK hplaces hincluded hs hs' files hstore hstore'
  | pattern pattern o =>
    obtain ⟨hs, hs'⟩ := hload (o := o.forFile) huncached
    obtain ⟨hstore, hstore'⟩ := hnested huncached
    change Alike K P (s.followPattern wanted pattern o) (s'.followPattern wanted pattern o)
    unfold followPattern
    refine Alike.bind (.note hK fun hR => leaves_normalize hR _) fun here => ?_
    dsimp only
    refine Alike.bind (.note hK fun hR => Glob.leaves_files hR _) fun files => ?_
    cases files with
    | error fault => exact Alike.throw _
    | ok files =>
      refine Alike.bind (alike_nested hK hplaces hincluded hs hs' files hstore hstore') fun r => ?_
      refine Alike.bind ?_ fun collapsed => ?_
      · exact .note hK fun hR => leaves_collapse hR _ _ _ _
      · cases collapsed with
        | error fault => exact Alike.throw _
        | ok ledger => exact Alike.pure _

end Tasks

/-- Without a cache, settings matter only for the places where files are looked for. -/
theorem alike_of_places (hs : s.cache = none) (hs' : s'.cache = none) (task : Task) :
    Alike K (fun _ => True) (s.follow wanted task) (s'.follow wanted task) := by
  have hincluded : ∀ budget, IncludedAlike K (fun _ => True) s s' wanted budget := by
    intro budget
    induction budget with
    | zero => exact fun m file _ _ pathField chain location => Alike.throw _
    | succ budget ih =>
      intro m file _ _ pathField chain location
      exact alike_file hK hplaces ih (storeFor?_eq_none (.inl hs)) (storeFor?_eq_none (.inl hs'))
  exact alike_follow hK hplaces hincluded (.inl ⟨hs, hs'⟩)

omit hK hplaces

/-- Without a cache, no file is changed, whether there is a result or not. -/
theorem sameFiles_of_uncached (hs : s.cache = none) (task : Task) (w : World) :
    SameFiles w (outcome (s.perform task) w).2 := by
  have halike : Alike (SameFiles w) (fun _ => True) (s.follow [] task) (s.follow [] task) :=
    alike_of_places (SameFiles.unnoted w) (fun _ _ _ _ => rfl) hs hs task
  have hleft := (halike w (.refl w) fun _ _ => trivial).2.2
  rw [follow_run] at hleft
  exact hleft

/-- What is to be done without the cache is done the same with any cache, which is left alone, as
long as no file is included. Included files are looked up in the cache all the same. -/
theorem uncached_task_leaves_cache {task : Task} (htask : task.Uncached) {w : World}
    (hnothing : ∀ m ∈ (s.follow wanted task).meets w, m.found = none) (cache : Option FilePath) :
    outcome ({ s with cache := cache }.perform task) w = outcome (s.perform task) w ∧
      SameFiles w (outcome (s.perform task) w).2 := by
  have hincluded : ∀ budget, IncludedAlike (SameFiles w) (fun m => m.found = none) s
      { s with cache := cache } wanted budget := by
    intro budget m file hnone hfound
    rw [hnone] at hfound
    cases hfound
  have hplaces : ∀ v, SameFiles w v → ∀ owner entry,
      { s with cache := cache }.places v owner entry = s.places v owner entry :=
    fun _ _ _ _ => rfl
  have halike := alike_follow (SameFiles.unnoted w) hplaces hincluded (.inr htask)
  obtain ⟨hrun, -, hleft⟩ := halike w (.refl w) hnothing
  rw [follow_run, follow_run] at hrun
  rw [follow_run] at hleft
  exact ⟨hrun, hleft⟩

/-- A world with a file that includes some entries, and with other files. -/
def including (entries : String) (files : List (Place × Node)) : World :=
  .holding ((["root.yml"], .file ("_include: [" ++ entries ++ "]\nk: 1\n").toUTF8 ⟨5⟩) :: files)

/-- The load of the file, with the cache or without. -/
def loadRoot (useCache : Bool) : Task :=
  .load ⟨"root.yml"⟩ { LoadOptions.default with useCache := useCache }

/-- A loader with a cache, which it may use for all its loads. -/
def caching : Settings := { default with cache := some ⟨".cache"⟩ }

theorem uncached_load_leaves_cache :
    (∃ m, (caching.follow [] (loadRoot false)).meets (including "'gone.yml[optional]'" []) = [m] ∧
      m.found = none) ∧
    (∀ cache, outcome ({ caching with cache := cache }.perform (loadRoot false))
        (including "'gone.yml[optional]'" []) =
      outcome (caching.perform (loadRoot false)) (including "'gone.yml[optional]'" [])) ∧
    SameFiles (including "'gone.yml[optional]'" [])
      (outcome (caching.perform (loadRoot false)) (including "'gone.yml[optional]'" [])).2 := by
  have hmeets : (caching.follow [] (loadRoot false)).meets (including "'gone.yml[optional]'" []) =
      [caching.meeting (including "'gone.yml[optional]'" []) ⟨"/root.yml"⟩ "gone.yml[optional]"
        ⟨"gone.yml", none, true, false⟩] ∧
      (caching.meeting (including "'gone.yml[optional]'" []) ⟨"/root.yml"⟩ "gone.yml[optional]"
        ⟨"gone.yml", none, true, false⟩).found = none := by
    decide +kernel
  have hnothing : ∀ m ∈ (caching.follow [] (loadRoot false)).meets
      (including "'gone.yml[optional]'" []), m.found = none := by
    rw [hmeets.1]
    intro m hm
    rw [List.mem_singleton.1 hm]
    exact hmeets.2
  have huncached : (loadRoot false).Uncached := rfl
  refine ⟨⟨_, hmeets⟩, fun cache => ?_, ?_⟩
  · exact (uncached_task_leaves_cache huncached hnothing cache).1
  · exact (uncached_task_leaves_cache huncached hnothing none).2

end Settings

end LayeredConfig
