import LayeredConfig.Proofs.Cache.Save
import LayeredConfig.Proofs.Moves

/-!
# Loading a file again

If nothing changes, a load whose result was kept is answered by the cache the next time, and no
document is read.

During a load the cache is written to, so not even that is obvious: what a ledger says of the files
consulted has to hold when the load is over. It does for all paths but those of files in the cache,
because a load leaves all else alone (`SameOutside`), and because each record, whether it is new or
comes from the cache, tells whether something is at its path.
-/

namespace LayeredConfig

/-- Nothing is at a path that is recorded as missing, and something at every other recorded path, as
far as the paths avoid some places. -/
def Ledger.TrueOf (S : Place → Prop) (w : World) (l : Ledger) : Prop :=
  ∀ e ∈ l.records, w.Avoids S e.1 → (w.find? e.1).isSome = !e.2.missing

/-- A load that begins in a world that is the same outside some places as an earlier one ends in
such a world, and its ledger is true of the earlier one. -/
def Honest (S : Place → Prop) (w₀ : World) (x : ExceptT Error InWorld (Tree × Ledger)) : Prop :=
  ∀ ⦃w t l w'⦄, SameOutside S w₀ w → outcome x w = (.ok (t, l), w') →
    SameOutside S w₀ w' ∧ l.TrueOf S w₀

section Ledgers

variable {S : Place → Prop} {w₀ w w' : World} {l m : Ledger}

theorem trueOf_empty : Ledger.empty.TrueOf S w₀ := nofun

theorem Ledger.TrueOf.update (hl : l.TrueOf S w₀) (hm : m.TrueOf S w₀) :
    (l.update m).TrueOf S w₀ := by
  intro e he
  rw [Ledger.update_eq] at he
  exact (Ledger.mem_of_mem_notes he).elim (hl e) (hm e)

/-- What is observed of a path tells whether something is there. -/
theorem observe_missing {path : FilePath} {attributes : Named String} {r : Record}
    (h : outcome (Record.observe path attributes) w = (.ok r, w')) :
    r.missing = (w.find? path).isNone := by
  have hstatus : outcome (Host.status path : ExceptT Error InWorld _) w =
      (.ok ((w.find? path).map Node.status), w) := rfl
  rw [Record.observe, outcome_bind_of_ok hstatus] at h
  cases hfind : w.find? path with
  | none =>
    rw [hfind] at h
    cases h
    rfl
  | some node =>
    rw [hfind] at h
    dsimp only [Option.map_some] at h
    split at h
    · obtain ⟨hash, w₁, -, h⟩ := outcome_bind_ok h
      obtain ⟨git, w₂, -, h⟩ := outcome_bind_ok h
      cases h
      rfl
    · obtain ⟨content, w₁, -, h⟩ := outcome_bind_ok h
      obtain ⟨hash, w₂, -, h⟩ := outcome_bind_ok h
      obtain ⟨git, w₃, -, h⟩ := outcome_bind_ok h
      cases h
      rfl

/-- A path that is recorded is recorded as it is. -/
theorem Ledger.TrueOf.track (hl : l.TrueOf S w₀) (hw : SameOutside S w₀ w) {path : FilePath}
    {attributes : Named String}
    (h : outcome (l.track path .observed attributes) w = (.ok m, w')) : m.TrueOf S w₀ := by
  have hnormalize : outcome (Host.normalize path : ExceptT Error InWorld _) w =
      (.ok (FilePath.normalize w.directory path), w) := rfl
  rw [Ledger.track, outcome_bind_of_ok hnormalize] at h
  split at h
  · cases h
    exact hl
  · obtain ⟨r, w₁, hobserve, h⟩ := outcome_bind_ok h
    cases h
    intro e he
    have hnoted : e ∈ Ledger.notes l.records [(FilePath.normalize w.directory path, r)] := he
    rcases Ledger.mem_of_mem_notes hnoted with he | he
    · exact hl e he
    · rw [List.mem_singleton.1 he]
      intro havoids
      rw [observe_missing hobserve, hw.find?_eq havoids, Option.not_isNone]

theorem Ledger.TrueOf.signed (hl : l.TrueOf S w₀) (hw : SameOutside S w₀ w)
    (h : outcome (Store.signed l) w = (.ok m, w')) : m.TrueOf S w₀ := by
  have hprogram : outcome (Host.program : ExceptT Error InWorld _) w = (.ok w.program, w) := rfl
  rw [Store.signed, outcome_bind_of_ok hprogram] at h
  split at h
  · exact hl.track hw h
  · cases h
    exact hl

/-- What the ledger of an answer says holds. -/
theorem Store.Answers.trueOf {s : Store} {paths : List FilePath} {settings : List String}
    {e : Envelope} {written : Instant} (h : s.Answers w paths settings e written)
    (hw : SameOutside S w₀ w) : e.ledger.TrueOf S w₀ := by
  intro r hr havoids
  have hstale := (Ledger.changedIn_eq_false.1 h.unchanged).1 r hr
  rw [Record.staleIn, World.modified?] at hstale
  rw [← hw.find?_eq havoids]
  cases hfind : w.find? r.1 with
  | none =>
    rw [hfind] at hstale
    simpa using hstale
  | some node =>
    rw [hfind] at hstale
    simpa using (Bool.or_eq_false_iff.1 hstale).1

end Ledgers

/-! ## Loads -/

section Loads

variable {S : Place → Prop} {w₀ w w' : World}

/-- Moves change nothing outside some places and lead from a ledger that is true of an earlier world
to one that is. -/
theorem trueOf_of_moves {c : Scope InWorld}
    (hload : ∀ file chain location, file.IsNormal → Honest S w₀ (c.load file chain location))
    {a b : Progress × World} (h : Relation.ReflTransGen (Move c) a b) (hw : SameOutside S w₀ a.2)
    (ha : a.1.ledger.TrueOf S w₀) : SameOutside S w₀ b.2 ∧ b.1.ledger.TrueOf S w₀ := by
  induction h with
  | refl => exact ⟨hw, ha⟩
  | tail _ hmove ih =>
    obtain ⟨hw, ha⟩ := ih
    cases hmove with
    | rebound p w sources => exact ⟨hw, ha⟩
    | met hm howner p warnings =>
      exact ⟨hw.trans (.of_sameFiles ⟨rfl, rfl, rfl⟩ rfl), ha.update trueOf_empty⟩
    | loaded hfile hchain hloaded p =>
      obtain ⟨hw', hl⟩ := hload _ _ _ hfile hw hloaded
      exact ⟨hw', ha.update hl⟩

namespace Settings

variable {s : Settings}

/-- To read and resolve a document gives a ledger that is true, if loading the files it includes
does. -/
theorem resolve_ok {budget : Nat} {request : Request} (hpath : request.path.IsNormal)
    (hload : ∀ request : Request, request.path.IsNormal →
      Honest S w₀ (s.loadFile budget request))
    {document : Tree} {added : Ledger} {result : Tree × Ledger} {w₁ w₂ : World}
    (hw : SameOutside S w₀ w)
    (hadd : outcome (Ledger.empty.add request.path) (w.document request.path).2 = (.ok added, w₁))
    (hresolve : outcome (s.resolveFor (fun path chain location =>
        s.loadFile budget (s.includedRequest request.pathField path chain location))
      request document) w₁ = (.ok result, w₂)) :
    SameOutside S w₀ w₂ ∧ (added.update result.2).TrueOf S w₀ := by
  have hread : SameOutside S w₀ (w.document request.path).2 :=
    hw.trans (.of_sameFiles ⟨rfl, rfl, rfl⟩ rfl)
  have hw₁ := hread.trans (((leaves_add noted_noting _ _).related hadd).sameOutside _)
  obtain ⟨room, p, hledger, hmoves⟩ := resolveFor_moves hpath hresolve
  obtain ⟨hw₂, hconsulted⟩ := trueOf_of_moves (c := s.scope _ request room)
    (fun file chain location hfile => hload _ hfile) hmoves hw₁ trueOf_empty
  rw [hledger]
  exact ⟨hw₂, (trueOf_empty.track hread hadd).update hconsulted⟩

variable {dir : Place} {root : FilePath} (hcache : s.cache = some root)
  (hroot : Store.Located ⟨root, s.packages⟩ dir w₀)
include hcache hroot

/-- An answer of the cache comes with a ledger that is true, if all files asked for are there. -/
theorem cached_ok {cacheKeys : Option (List String)} {paths : List FilePath}
    {hit : Option (Tree × Ledger)} (hw : SameOutside (Inside dir) w₀ w)
    (h : outcome (cached (s.storeFor? cacheKeys) paths) w = (.ok hit, w')) :
    SameOutside (Inside dir) w₀ w' ∧
      ∀ result ∈ hit, result.2.TrueOf (Inside dir) w₀ ∧ ∀ p ∈ paths, (w.find? p).isSome = true := by
  cases cacheKeys with
  | none =>
    have hstore : s.storeFor? none = none := by simp [storeFor?]
    rw [hstore] at h
    cases h
    exact ⟨hw, fun result hresult => by cases hresult⟩
  | some keys =>
    have hstore : s.storeFor? (some keys) = some (⟨root, s.packages⟩, keys) := by
      simp [storeFor?, store?, hcache]
    rw [hstore] at h
    have hanswer := Store.answer_of_lookup h
    have houtside := (hroot.of_sameOutside hw).sameOutside_answer paths keys
    rw [hanswer] at houtside
    refine ⟨hw.trans houtside, ?_⟩
    rintro ⟨t, l⟩ rfl
    obtain ⟨rfl, e, written, hanswers, heq⟩ := Store.answer_eq_some_iff.1 hanswer
    cases heq
    refine ⟨hanswers.trueOf hw, fun p hp => ?_⟩
    obtain ⟨t, hthere, -⟩ := hanswers.fresh p hp
    obtain ⟨node, hnode, -⟩ := World.modified?_eq_some.1 hthere
    rw [hnode]
    rfl

/-- Keeping a result leaves its ledger true. -/
theorem keep_ok {cacheKeys : Option (List String)} {paths : List FilePath} {what : String}
    {t : Tree} {l : Ledger} {result : Tree × Ledger} (hw : SameOutside (Inside dir) w₀ w)
    (hl : l.TrueOf (Inside dir) w₀)
    (h : outcome (keep (s.storeFor? cacheKeys) paths what t l) w = (.ok result, w')) :
    SameOutside (Inside dir) w₀ w' ∧ result.2.TrueOf (Inside dir) w₀ := by
  cases cacheKeys with
  | none =>
    have hstore : s.storeFor? none = none := by simp [storeFor?]
    rw [hstore] at h
    cases h
    exact ⟨hw, hl⟩
  | some keys =>
    have hstore : s.storeFor? (some keys) = some (⟨root, s.packages⟩, keys) := by
      simp [storeFor?, store?, hcache]
    rw [hstore] at h
    obtain ⟨l', w₁, hsigned, hnoted⟩ := Store.signed_ends l w
    have hw₁ := hw.trans (hnoted.sameOutside _)
    have hstored := hw₁.trans
      ((hroot.of_sameOutside hw₁).sameOutside_stored paths keys (Store.envelope w₁ paths t l'))
    unfold keep at h
    dsimp only at h
    rw [outcome_bind_of_ok (Store.save_run (hroot.of_sameOutside hw).hasDirectory hsigned)] at h
    dsimp only at h
    split at h
    · cases h
      exact ⟨hstored, hl.signed hw hsigned⟩
    · obtain ⟨_, w₂, hwarn, h⟩ := outcome_bind_ok h
      cases hwarn
      cases h
      exact ⟨hstored.trans (.of_sameFiles ⟨rfl, rfl, rfl⟩ rfl), hl.signed hw hsigned⟩

/-- A result that is kept without a warning is held by the cache. -/
theorem keep_holds {keys : List String} {paths : List FilePath} {what : String} {t : Tree}
    {l : Ledger} {result : Tree × Ledger} (hw : SameOutside (Inside dir) w₀ w)
    (hquiet : w'.warnings = [])
    (h : outcome (keep (s.storeFor? (some keys)) paths what t l) w = (.ok result, w')) :
    Store.Holds ⟨root, s.packages⟩ w' paths keys
      (Store.envelope w paths result.1 result.2) w.now := by
  have hstore : s.storeFor? (some keys) = some (⟨root, s.packages⟩, keys) := by
    simp [storeFor?, store?, hcache]
  rw [hstore] at h
  obtain ⟨l', w₁, hsigned, hnoted⟩ := Store.signed_ends l w
  have hlocated := (hroot.of_sameOutside hw).of_sameOutside (hnoted.sameOutside (Inside dir))
  unfold keep at h
  dsimp only at h
  rw [outcome_bind_of_ok (Store.save_run (hroot.of_sameOutside hw).hasDirectory hsigned)] at h
  dsimp only at h
  split at h
  next hstored =>
    cases h
    obtain ⟨memo, warnings, rfl⟩ := hnoted
    exact hlocated.holds (Prod.ext hstored rfl)
  · obtain ⟨_, w₂, hwarn, h⟩ := outcome_bind_ok h
    cases hwarn
    cases h
    simp at hquiet

theorem honest_loadFile (budget : Nat) {request : Request} (hpath : request.path.IsNormal) :
    Honest (Inside dir) w₀ (s.loadFile budget request) := by
  induction budget generalizing request with
  | zero =>
    intro w t l w' _ h
    cases h
  | succ budget ih =>
    intro w t l w' hw h
    rcases loadFile_ok h with
      hhit | ⟨document, added, tree, consulted, w₁, w₂, w₃, hmiss, -, hadd, hresolve, hkeep⟩
    · obtain ⟨hw', htrue⟩ := cached_ok hcache hroot hw hhit
      exact ⟨hw', (htrue _ rfl).1⟩
    · obtain ⟨hw₁, -⟩ := cached_ok hcache hroot hw hmiss
      obtain ⟨hw₃, htrue⟩ := resolve_ok hpath (fun _ => ih) hw₁ hadd hresolve
      exact keep_ok hcache hroot hw₃ htrue hkeep

end Settings

end Loads

/-! ## Loads in an unchanged world -/

instance : DecidableEq Envelope
  | ⟨engine, inputs, tree, l⟩, ⟨engine', inputs', tree', l'⟩ =>
    decidable_of_iff (engine = engine' ∧ inputs = inputs' ∧ tree = tree' ∧ l = l') (by simp)

/-- What an envelope is written as reads back as the envelope. -/
def Envelope.ReadsBack (e : Envelope) : Prop :=
  ∀ text ∈ (Yaml.render e.asTree).toOption, (Yaml.decode Envelope.decoder text).toOption = some e

instance (e : Envelope) : Decidable e.ReadsBack :=
  inferInstanceAs (Decidable (∀ text ∈ (Yaml.render e.asTree).toOption, _))

theorem World.entry_of_find? {w : World} {file : FilePath} {text : String} {t : Instant}
    (h : w.find? file = some (.file text.toUTF8 t)) {e : Envelope}
    (hread : (Yaml.decode Envelope.decoder text).toOption = some e) : w.entry file = .ok e := by
  refine World.entry_eq_ok_iff.2 ⟨text.toUTF8, t, text, h, dif_pos text.isValidUTF8, ?_⟩
  cases hdecode : Yaml.decode Envelope.decoder text with
  | error fault =>
    rw [hdecode] at hread
    cases hread
  | ok e' =>
    rw [hdecode] at hread
    exact congrArg Except.ok (Option.some.inj hread)

/-- The paths of a ledger have nothing to do with the cache in a directory, no file that is tracked
was changed after an instant, as such or in the seconds a ledger keeps, and nothing is where an
optional file was missed. -/
structure Ledger.Settled (l : Ledger) (w : World) (dir : Place) (packages : Packages)
    (written : Instant) : Prop where
  apart : l.Apart w (Inside dir) packages
  unchanged : ∀ e ∈ l.records, ∀ t ∈ w.modified? e.1,
    written.epochSeconds.lt t.epochSeconds = false
  missing : ∀ e ∈ l.missed, ∀ p ∈ e.2.target packages w, w.find? p = none

instance (l : Ledger) (w : World) (dir : Place) (packages : Packages) (written : Instant) :
    Decidable (l.Settled w dir packages written) :=
  decidable_of_iff (_ ∧ _ ∧ _) ⟨fun ⟨h₁, h₂, h₃⟩ => ⟨h₁, h₂, h₃⟩, fun ⟨h₁, h₂, h₃⟩ => ⟨h₁, h₂, h₃⟩⟩

/-- What is settled and true of a world has not changed in a world that is the same outside the
directory. -/
theorem Ledger.Settled.changedIn_eq {l : Ledger} {w w' : World} {dir : Place} {packages : Packages}
    {written : Instant} (h : l.Settled w dir packages written) (hl : l.TrueOf (Inside dir) w)
    (hw : SameOutside (Inside dir) w w') : l.changedIn w' written packages = false := by
  rw [h.apart.changedIn_eq hw]
  refine Ledger.changedIn_eq_false.2 ⟨fun e he => ?_, h.missing⟩
  have htrue := hl e he (h.apart.recorded e he)
  rw [Record.staleIn]
  cases hdated : w.modified? e.1 with
  | none =>
    rw [World.modified?, Option.map_eq_none_iff] at hdated
    rw [hdated] at htrue
    simpa using htrue
  | some t =>
    obtain ⟨node, hfind, -⟩ := World.modified?_eq_some.1 hdated
    rw [hfind] at htrue
    have hpresent : e.2.missing = false := by simpa using htrue
    simp [hpresent, h.unchanged e he t hdated]

namespace Settings

variable {s : Settings} {o : LoadOptions}

/-- A load that reads a document leaves its result in the cache, unless it gives a warning. -/
theorem load_saves {root : FilePath} {keys : List String} {dir : Place} {path : FilePath} {t : Tree}
    {l : Ledger} {w w₁ : World} (hcache : s.cache = some root) (hkeys : s.loadKeys? o = some keys)
    (hroot : Store.Located ⟨root, s.packages⟩ dir w)
    (hload : outcome (s.load path o) w = (.ok (t, l), w₁)) (hread : w₁.parsed ≠ w.parsed)
    (hquiet : w₁.warnings = []) :
    Store.Holds ⟨root, s.packages⟩ w₁ [FilePath.normalize w.directory path] keys
      ⟨engineName, [FilePath.normalize w.directory path], t, l⟩ w₁.now := by
  rw [load_run, hkeys] at hload
  have hnormal := FilePath.isNormal_normalize w.directory path
  generalize FilePath.normalize w.directory path = file at *
  rcases loadFile_ok hload with
    hhit | ⟨document, added, tree, consulted, w₂, w₃, w₄, hmiss, -, hadd, hresolve, hkeep⟩
  · exact absurd ((leaves_cached sameParsed_writing _ _).related hhit) hread
  · obtain ⟨hw₂, -⟩ := cached_ok hcache hroot (SameOutside.refl _ w) hmiss
    have hw₄ := (resolve_ok hnormal (fun _ => honest_loadFile hcache hroot _) hw₂ hadd hresolve).1
    have htime := (leaves_keep sameTime_writing _ _ _ _ _).related hkeep
    have hholds := keep_holds hcache hroot hw₄ hquiet hkeep
    have henvelope : Store.envelope w₄ [file] t l = ⟨engineName, [file], t, l⟩ := by
      rw [Store.envelope, List.map_singleton, hnormal.normalize_eq]
    rw [← henvelope, htime]
    exact hholds

/-- A load whose result was kept is answered by the cache the next time, with the same tree and an
equal ledger, and no document is read: if no file has changed since, the cache was there before and
lies apart, nothing tracked is newer than the entry, nothing is where an optional file was missed,
and the entry reads back as what was written. -/
theorem load_again_is_answered {root : FilePath} {keys : List String} {dir : Place}
    {path : FilePath} {t : Tree} {l : Ledger} {w w₁ w₂ : World} {written : Instant}
    (hcache : s.cache = some root) (hkeys : s.loadKeys? o = some keys)
    (hroot : Store.Located ⟨root, s.packages⟩ dir w)
    (hload : outcome (s.load path o) w = (.ok (t, l), w₁))
    (hkept : Store.Holds ⟨root, s.packages⟩ w₁ [FilePath.normalize w.directory path] keys
      ⟨engineName, [FilePath.normalize w.directory path], t, l⟩ written)
    (hreads : Envelope.ReadsBack ⟨engineName, [FilePath.normalize w.directory path], t, l⟩)
    (hfile : w.Avoids (Inside dir) (FilePath.normalize w.directory path) ∧
      ∀ u ∈ w.modified? (FilePath.normalize w.directory path),
        u.nanoseconds ≤ written.nanoseconds)
    (hsettled : l.Settled w dir s.packages written) (hsame : SameFiles w₁ w₂) :
    outcome (s.load path o) w₂ = (.ok (t, l), w₂) := by
  rw [load_run, hkeys] at hload
  have hnormal := FilePath.isNormal_normalize w.directory path
  generalize hnamed : FilePath.normalize w.directory path = file at *
  obtain ⟨hw₁, htrue⟩ := honest_loadFile hcache hroot _ hnormal (SameOutside.refl _ w) hload
  have hthere : ∃ node, w.find? file = some node := by
    rw [← Option.isSome_iff_exists]
    rcases loadFile_ok hload with
      hhit | ⟨document, added, tree, consulted, w₃, w₄, w₅, hmiss, hdocument, -⟩
    · obtain ⟨-, hthere⟩ := cached_ok hcache hroot (SameOutside.refl _ w) hhit
      exact (hthere _ rfl).2 file List.mem_cons_self
    · obtain ⟨hw₃, -⟩ := cached_ok hcache hroot (SameOutside.refl _ w) hmiss
      obtain ⟨content, u, hfind, -⟩ := World.find?_of_document hdocument
      rw [← hw₃.find?_eq hfile.1]
      exact Option.isSome_of_eq_some hfind
  obtain ⟨node, hnode⟩ := hthere
  obtain ⟨text, hrender, hentry⟩ := hkept
  have hread := hreads text hrender
  have hanswers : Store.Answers ⟨root, s.packages⟩ w₁ [file] keys ⟨engineName, [file], t, l⟩
      written := {
    root := (hroot.of_sameOutside hw₁).hasDirectory
    dated := World.modified?_eq_some.2 ⟨_, hentry, rfl⟩
    fresh := fun p hp => by
      rw [List.mem_singleton.1 hp]
      refine ⟨node.modified, World.modified?_eq_some.2 ⟨node, ?_, rfl⟩, hfile.2 _ ?_⟩
      · rw [hw₁.find?_eq hfile.1, hnode]
      · exact World.modified?_eq_some.2 ⟨node, hnode, rfl⟩
    entry := World.entry_of_find? hentry hread
    engine := rfl
    unchanged := hsettled.changedIn_eq htrue hw₁ }
  have hstore : s.storeFor? (some keys) = some (⟨root, s.packages⟩, keys) := by
    simp [storeFor?, store?, hcache]
  have hhit : outcome (cached (s.storeFor? (some keys)) [file]) w₂ = (.ok (some (t, l)), w₂) := by
    rw [hstore]
    exact (hanswers.of_sameFiles hsame).lookup_run
  rw [load_run, hkeys, hsame.directory, hw₁.directory, hnamed, loadFile]
  exact outcome_bind_of_ok hhit _

end Settings

section Example

/-- A world with a file that includes a missing one, and an empty cache. -/
def unkept : World :=
  { World.holding [
      (["r.yml"], .file "_include: b.yml[optional]\na: 1\n".toUTF8 ⟨5000000000⟩),
      (["cache"], .directory ⟨8000000000⟩)] with
    now := ⟨9000000000⟩ }

/-- Settings with the cache of it. -/
def caching : Settings := ⟨[], some ⟨"/cache"⟩, Packages.none⟩

/-- What is kept of the file. -/
def keptEnvelope : Envelope where
  engine := engineName
  inputs := [⟨"/r.yml"⟩]
  tree := .map [(.str "a", .int 1)]
  ledger := {
    records := [(⟨"/r.yml"⟩, { Record.blank with
      modified := ⟨4617315517961601024⟩
      date := some "1970-01-01 00:00:05"
      hash := some "93da30dc842fdb0dbdb456d837156cfbece4bd0c0f7260085cab28042199efcb" })]
    missed := [(⟨"/b.yml"⟩, ⟨⟨"/b.yml"⟩, ⟨"/r.yml"⟩, none, none⟩)] }

/-- The first load reads the file, the second one does not. -/
theorem unkept_load_is_answered :
    ∃ t l w₁, outcome (caching.load ⟨"r.yml"⟩ LoadOptions.default) unkept = (.ok (t, l), w₁) ∧
      w₁.parsed = [⟨"/r.yml"⟩] ∧
      outcome (caching.load ⟨"r.yml"⟩ LoadOptions.default) w₁ = (.ok (t, l), w₁) := by
  have hrun : succeeds (caching.load ⟨"r.yml"⟩ LoadOptions.default) unkept (fun r w₁ =>
      r = (keptEnvelope.tree, keptEnvelope.ledger) ∧ w₁.parsed = [⟨"/r.yml"⟩] ∧
        w₁.warnings = [] ∧ w₁.now = ⟨9000000000⟩) := by
    decide +kernel
  obtain ⟨r, w₁, hload, htest⟩ := succeeds_iff.1 hrun
  obtain ⟨rfl, hparsed, hquiet, htime⟩ := of_decide_eq_true htest
  have hroot : Store.Located ⟨⟨"/cache"⟩, Packages.none⟩ ["cache"] unkept :=
    ⟨⟨⟨8000000000⟩, rfl⟩, by decide⟩
  have hpath : FilePath.normalize unkept.directory ⟨"r.yml"⟩ = ⟨"/r.yml"⟩ := by decide +kernel
  have hkept := Settings.load_saves rfl rfl hroot hload (by rw [hparsed]; decide) hquiet
  have hreads : keptEnvelope.ReadsBack := by decide +kernel
  have hfile : unkept.Avoids (Inside ["cache"]) ⟨"/r.yml"⟩ ∧
      ∀ u ∈ unkept.modified? ⟨"/r.yml"⟩, u.nanoseconds ≤ 9000000000 := by
    decide +kernel
  have hsettled : keptEnvelope.ledger.Settled unkept ["cache"] Packages.none ⟨9000000000⟩ := by
    decide +kernel
  rw [htime] at hkept
  exact ⟨_, _, w₁, hload, hparsed, Settings.load_again_is_answered rfl rfl hroot hload hkept
    (hpath.symm ▸ hreads) (hpath.symm ▸ hfile) hsettled (SameFiles.refl w₁)⟩

end Example

end LayeredConfig
