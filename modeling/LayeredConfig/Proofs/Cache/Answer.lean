import LayeredConfig.Proofs.Outside

/-!
# What the cache answers

A lookup as a function of the world (`answer`), and when an entry answers a request: `Answers` names
all that is asked of the entry. A request is answered if and only if some entry answers it, and that
changes nothing; a request that is not answered may cost the entry that was found. What a request is
answered does not depend on files to which nothing leads that is asked about (`Ledger.Apart`).
-/

namespace LayeredConfig

namespace World

/-- When what is at a path was last changed. -/
def modified? (w : World) (p : FilePath) : Option Instant := (w.find? p).map Node.modified

/-- The text in a file. -/
def text (w : World) (p : FilePath) : Except SystemFault String :=
  match w.content p with
  | .error fault => .error fault
  | .ok bytes =>
    match String.fromUTF8? bytes with
    | some text => .ok text
    | none => .error .notText

/-- The entry in a file. -/
def entry (w : World) (file : FilePath) : Except Error Envelope :=
  match w.text file with
  | .error fault => .error (.system fault)
  | .ok text =>
    match Yaml.decode Envelope.decoder text with
    | .ok e => .ok e
    | .error fault => .error (.record fault)

/-- An entry is what the text of a file is read as. -/
theorem entry_eq_ok_iff {w : World} {file : FilePath} {e : Envelope} :
    w.entry file = .ok e ↔ ∃ bytes t text, w.find? file = some (.file bytes t) ∧
      String.fromUTF8? bytes = some text ∧ Yaml.decode Envelope.decoder text = .ok e := by
  rw [entry, text]
  cases hcontent : w.content file with
  | error fault =>
    refine ⟨nofun, ?_⟩
    rintro ⟨bytes, t, text, hfile, -⟩
    cases hcontent.symm.trans (content_eq_ok_iff.2 ⟨t, hfile⟩)
  | ok bytes =>
    obtain ⟨t, hfile⟩ := content_eq_ok_iff.1 hcontent
    rw [hfile]
    dsimp only
    cases htext : String.fromUTF8? bytes with
    | none => simp [htext]
    | some text => cases hread : Yaml.decode Envelope.decoder text <;> simp [htext, hread]

theorem modified?_eq_some {w : World} {p : FilePath} {t : Instant} :
    w.modified? p = some t ↔ ∃ node, w.find? p = some node ∧ node.modified = t :=
  Option.map_eq_some_iff

end World

/-! ## Ledgers in a world -/

/-- What a record says of its path does not hold in a world, or the path was changed after the
reference. -/
def Record.staleIn (w : World) (reference : Binary64) (path : FilePath) (r : Record) : Bool :=
  match w.modified? path with
  | none => !r.missing
  | some t => r.missing || reference.lt t.epochSeconds

/-- Where an optional file would appear that was not found. -/
def Missed.target (packages : Packages) (w : World) (miss : Missed) : Option FilePath :=
  match miss.package, miss.file with
  | some package, some file => (packages.directoryIn w package).map fun dir => dir.join file
  | some _, none => none
  | none, _ => some miss.path

namespace Ledger

/-- Something recorded in a world has changed after an instant. -/
def changedIn (l : Ledger) (w : World) (reference : Instant) (packages : Packages) : Bool :=
  l.records.any (fun e => e.2.staleIn w reference.epochSeconds e.1) ||
    l.missed.any fun e => (e.2.target packages w).any fun p => (w.find? p).isSome

theorem changedIn_eq_false {l : Ledger} {w : World} {reference : Instant} {packages : Packages} :
    l.changedIn w reference packages = false ↔
      (∀ e ∈ l.records, e.2.staleIn w reference.epochSeconds e.1 = false) ∧
      ∀ e ∈ l.missed, ∀ p, e.2.target packages w = some p → w.find? p = none := by
  simp only [changedIn, Bool.or_eq_false_iff, List.any_eq_false, Bool.not_eq_true]
  refine and_congr_right fun _ => forall₂_congr fun e _ => ?_
  cases e.2.target packages w <;> simp

/-- The paths of a ledger do not lead to some places. -/
structure Apart (l : Ledger) (w : World) (S : Place → Prop) (packages : Packages) : Prop where
  recorded : ∀ e ∈ l.records, w.Avoids S e.1
  missed : ∀ e ∈ l.missed, ∀ p ∈ e.2.target packages w, w.Avoids S p

instance (l : Ledger) (w : World) (S : Place → Prop) [DecidablePred S] (packages : Packages) :
    Decidable (l.Apart w S packages) :=
  decidable_of_iff (_ ∧ _) ⟨fun ⟨h₁, h₂⟩ => ⟨h₁, h₂⟩, fun ⟨h₁, h₂⟩ => ⟨h₁, h₂⟩⟩

/-- Changes of files to which no path of a ledger leads are no changes for it. -/
theorem Apart.changedIn_eq {l : Ledger} {w w' : World} {S : Place → Prop} {packages : Packages}
    (h : l.Apart w S packages) (hw : SameOutside S w w') (reference : Instant) :
    l.changedIn w' reference packages = l.changedIn w reference packages := by
  have hstale : ∀ e ∈ l.records, e.2.staleIn w' reference.epochSeconds e.1 =
      e.2.staleIn w reference.epochSeconds e.1 := fun e he => by
    rw [Record.staleIn, Record.staleIn, World.modified?, World.modified?,
      hw.find?_eq (h.recorded e he)]
  have htarget (miss : Missed) : miss.target packages w' = miss.target packages w := by
    simp only [Missed.target, hw.directoryIn_eq]
  have hthere : ∀ e ∈ l.missed, ∀ p, e.2.target packages w = some p → w'.find? p = w.find? p :=
    fun e he p hp => hw.find?_eq (h.missed e he p hp)
  refine Bool.eq_iff_iff.2 (not_iff_not.1 ?_)
  simp only [Bool.not_eq_true, changedIn_eq_false, htarget]
  exact and_congr (forall₂_congr fun e he => by rw [hstale e he])
    (forall₂_congr fun e he => forall₂_congr fun p hp => by rw [hthere e he p hp])

end Ledger

/-! ## Questions to a world -/

section Questions

variable (w : World)

theorem isDirectory_run (p : FilePath) :
    outcome (Host.isDirectory p : ExceptT Error InWorld Bool) w = (.ok (w.hasDirectory p), w) := by
  change (Except.ok (((w.find? p).map Node.status).any (·.isDirectory)), w) = _
  unfold World.hasDirectory
  cases w.find? p with
  | none => rfl
  | some node => cases node <;> rfl

theorem modified_run (p : FilePath) :
    outcome (Host.modified p : ExceptT Error InWorld _) w = (.ok (w.modified? p), w) := by
  change (Except.ok (((w.find? p).map Node.status).map (·.modified)), w) = _
  unfold World.modified?
  cases w.find? p with
  | none => rfl
  | some node => cases node <;> rfl

theorem isPresent_run (p : FilePath) :
    outcome (Host.isPresent p : ExceptT Error InWorld Bool) w = (.ok (w.find? p).isSome, w) := by
  change (Except.ok ((w.find? p).map Node.status).isSome, w) = _
  rw [Option.isSome_map]

theorem readText_run (file : FilePath) :
    outcome (Host.readText file : ExceptT Error InWorld _) w = (.ok (w.text file), w) := by
  have hread : outcome (Host.read file : ExceptT Error InWorld _) w = (.ok (w.content file), w) :=
    rfl
  rw [Host.readText, outcome_bind_of_ok hread, World.text]
  cases w.content file with
  | error fault => rfl
  | ok bytes =>
    dsimp only
    cases String.fromUTF8? bytes <;> rfl

theorem readEntry_run (file : FilePath) :
    outcome (Store.readEntry file : ExceptT Error InWorld _) w = (.ok (w.entry file), w) := by
  rw [Store.readEntry, outcome_bind_of_ok (readText_run w file), World.entry]
  cases w.text file with
  | error fault => rfl
  | ok text =>
    dsimp only
    cases Yaml.decode Envelope.decoder text <;> rfl

theorem resolve_run (packages : Packages) (name : String) (file : FilePath) :
    outcome (packages.resolve name file : ExceptT Error InWorld _) w =
      (.ok ((packages.directoryIn w name).map fun dir => dir.join file), w) := by
  have hfirst : ∀ dirs : List FilePath,
      outcome (Packages.firstDirectory dirs : ExceptT Error InWorld _) w =
        (.ok (dirs.find? w.hasDirectory), w) := by
    intro dirs
    induction dirs with
    | nil => rfl
    | cons dir rest ih =>
      rw [Packages.firstDirectory, outcome_bind_of_ok (isDirectory_run w dir), List.find?_cons]
      cases w.hasDirectory dir with
      | true => rfl
      | false => exact ih
  have hlocate : outcome (packages.locate name : ExceptT Error InWorld _) w =
      (.ok (packages.directoryIn w name), w) := by
    unfold Packages.locate Packages.directoryIn
    cases packages.registered.get? name with
    | some dir => exact hfirst _
    | none => exact hfirst _
  rw [Packages.resolve, outcome_bind_of_ok hlocate]
  rfl

theorem anyStale_run (reference : Binary64) (records : List (FilePath × Record)) :
    outcome (Ledger.anyStale reference records : ExceptT Error InWorld Bool) w =
      (.ok (records.any fun e => e.2.staleIn w reference e.1), w) := by
  have hstale : ∀ (path : FilePath) (r : Record),
      outcome (Ledger.isStale reference path r : ExceptT Error InWorld Bool) w =
        (.ok (r.staleIn w reference path), w) := by
    intro path r
    rw [Ledger.isStale, outcome_bind_of_ok (modified_run w path), Record.staleIn]
    cases w.modified? path <;> rfl
  induction records with
  | nil => rfl
  | cons e rest ih =>
    rw [Ledger.anyStale, outcome_bind_of_ok (hstale e.1 e.2), List.any_cons]
    cases e.2.staleIn w reference e.1 with
    | true => rfl
    | false => exact ih

theorem anyAppeared_run (packages : Packages) (missed : List (FilePath × Missed)) :
    outcome (Ledger.anyAppeared packages missed : ExceptT Error InWorld Bool) w =
      (.ok (missed.any fun e => (e.2.target packages w).any fun p => (w.find? p).isSome), w) := by
  have happeared : ∀ miss : Missed,
      outcome (Ledger.hasAppeared packages miss : ExceptT Error InWorld Bool) w =
        (.ok ((miss.target packages w).any fun p => (w.find? p).isSome), w) := by
    intro miss
    unfold Ledger.hasAppeared Missed.target
    cases miss.package with
    | none => exact isPresent_run w miss.path
    | some package =>
      cases miss.file with
      | none => rfl
      | some file =>
        refine (outcome_bind_of_ok (resolve_run w packages package file) _).trans ?_
        dsimp only
        cases packages.directoryIn w package with
        | none => rfl
        | some dir => exact isPresent_run w (dir.join file)
  induction missed with
  | nil => rfl
  | cons e rest ih =>
    rw [Ledger.anyAppeared, outcome_bind_of_ok (happeared e.2), List.any_cons]
    cases (e.2.target packages w).any fun p => (w.find? p).isSome with
    | true => rfl
    | false => exact ih

theorem hasChanged_run (l : Ledger) (reference : Instant) (packages : Packages) :
    outcome (l.hasChanged reference packages : ExceptT Error InWorld Bool) w =
      (.ok (l.changedIn w reference packages), w) := by
  rw [Ledger.hasChanged, outcome_bind_of_ok (anyStale_run w _ _), Ledger.changedIn]
  cases l.records.any fun e => e.2.staleIn w reference.epochSeconds e.1 with
  | true => rfl
  | false => exact anyAppeared_run w _ _

theorem noneNewer_run (t : Instant) (paths : List FilePath) :
    outcome (Store.noneNewer t paths : ExceptT Error InWorld Bool) w =
      (.ok (paths.all fun p => (w.modified? p).any fun u => u.nanoseconds ≤ t.nanoseconds), w) := by
  induction paths with
  | nil => rfl
  | cons p rest ih =>
    rw [Store.noneNewer, outcome_bind_of_ok (modified_run w p), List.all_cons]
    cases w.modified? p with
    | none => rfl
    | some u =>
      dsimp only [Option.any_some]
      split
      next h => rw [ih, decide_eq_true h, Bool.true_and]
      next h => rw [decide_eq_false h, Bool.false_and]; rfl

theorem warn_run (text : String) :
    outcome (Host.warn text : ExceptT Error InWorld Unit) w =
      (.ok (), { w with warnings := w.warnings ++ [text] }) := rfl

theorem discard_run (file : FilePath) :
    outcome (Store.discard file : ExceptT Error InWorld Unit) w =
      (.ok (), (w.removeFile file).2) := rfl

end Questions

/-! ## Answers -/

namespace Store

/-- The file of a request in a world. -/
def fileIn (s : Store) (w : World) (paths : List FilePath) (settings : List String) : FilePath :=
  s.entryPath (Cache.key w.directory paths settings)

/-- The world after the entry in a file has been discarded because it cannot be read. -/
def spoiled (w : World) (file : FilePath) (e : Error) : World :=
  ({ w with warnings := w.warnings ++
    ["discarding corrupt cache entry " ++ file.text ++ ": " ++ e.message] }.removeFile file).2

/-- What a lookup answers, and the world it leaves. -/
def answer (s : Store) (w : World) (paths : List FilePath) (settings : List String) :
    Option (Tree × Ledger) × World :=
  let file := s.fileIn w paths settings
  if !w.hasDirectory s.root then (none, w)
  else
    match w.modified? file with
    | none => (none, w)
    | some written =>
      if !(paths.all fun p => (w.modified? p).any fun t => t.nanoseconds ≤ written.nanoseconds) then
        (none, w)
      else
        match w.entry file with
        | .error e => (none, spoiled w file e)
        | .ok e =>
          if e.engine != engineName then (none, (w.removeFile file).2)
          else if e.ledger.changedIn w written s.packages then (none, w)
          else (some (e.tree, e.ledger), w)

variable {s : Store} {w w' : World} {paths : List FilePath} {settings : List String}

theorem lookup_run (s : Store) (w : World) (paths : List FilePath) (settings : List String) :
    outcome (s.lookup paths settings) w =
      (.ok (s.answer w paths settings).1, (s.answer w paths settings).2) := by
  have hkey : outcome (keyFor paths settings : ExceptT Error InWorld String) w =
      (.ok (Cache.key w.directory paths settings), w) := rfl
  rw [lookup, outcome_bind_of_ok (isDirectory_run w s.root), answer]
  cases w.hasDirectory s.root with
  | false => simp only [Bool.not_false, if_true, outcome_pure]
  | true =>
    simp only [Bool.not_true, Bool.false_eq_true, if_false]
    rw [outcome_bind_of_ok hkey, outcome_bind_of_ok (modified_run w _), ← fileIn]
    cases w.modified? (s.fileIn w paths settings) with
    | none => simp only [outcome_pure]
    | some written =>
      dsimp only
      rw [outcome_bind_of_ok (noneNewer_run w written paths)]
      split
      · simp only [outcome_pure]
      · rw [outcome_bind_of_ok (readEntry_run w _)]
        cases w.entry (s.fileIn w paths settings) with
        | error e =>
          dsimp only
          rw [outcome_bind_of_ok (warn_run w _), outcome_bind_of_ok (discard_run _ _),
            outcome_pure, spoiled]
        | ok e =>
          dsimp only
          split
          · rw [outcome_bind_of_ok (discard_run w _), outcome_pure]
          · rw [outcome_bind_of_ok (hasChanged_run w _ _ _)]
            split <;> rw [outcome_pure]

theorem answer_of_lookup {hit : Option (Tree × Ledger)}
    (h : outcome (s.lookup paths settings) w = (.ok hit, w')) :
    s.answer w paths settings = (hit, w') := by
  rw [lookup_run] at h
  obtain ⟨hhit, hworld⟩ := Prod.mk.inj h
  exact Prod.ext (Except.ok.inj hhit) hworld

/-- The entry, written at an instant, answers the request in a world. -/
structure Answers (s : Store) (w : World) (paths : List FilePath) (settings : List String)
    (e : Envelope) (written : Instant) : Prop where
  root : w.hasDirectory s.root = true
  dated : w.modified? (s.fileIn w paths settings) = some written
  fresh : ∀ p ∈ paths, ∃ t, w.modified? p = some t ∧ t.nanoseconds ≤ written.nanoseconds
  entry : w.entry (s.fileIn w paths settings) = .ok e
  engine : e.engine = engineName
  unchanged : e.ledger.changedIn w written s.packages = false

theorem all_fresh_iff {written : Instant} :
    (paths.all fun p => (w.modified? p).any fun t => t.nanoseconds ≤ written.nanoseconds) = true ↔
      ∀ p ∈ paths, ∃ t, w.modified? p = some t ∧ t.nanoseconds ≤ written.nanoseconds := by
  simp [Option.any_eq_true]

/-- A request is answered if and only if an entry answers it, and that changes nothing. -/
theorem answer_eq_some_iff {hit : Tree × Ledger} :
    s.answer w paths settings = (some hit, w') ↔
      w' = w ∧ ∃ e written, s.Answers w paths settings e written ∧ hit = (e.tree, e.ledger) := by
  constructor
  · intro h
    simp only [answer] at h
    split at h
    · cases h
    next hroot =>
      split at h
      · cases h
      next written hdated =>
        split at h
        · cases h
        next hfresh =>
          split at h
          · cases h
          next e hentry =>
            split at h
            · cases h
            next hengine =>
              split at h
              · cases h
              next hchanged =>
                cases h
                exact ⟨rfl, e, written, {
                  root := by simpa using hroot
                  dated := hdated
                  fresh := all_fresh_iff.1 (by simpa using hfresh)
                  entry := hentry
                  engine := by simpa using hengine
                  unchanged := by simpa using hchanged }, rfl⟩
  · rintro ⟨rfl, e, written, h, rfl⟩
    simp [answer, h.root, h.dated, all_fresh_iff.2 h.fresh, h.entry, h.engine, h.unchanged]

theorem Answers.lookup_run {e : Envelope} {written : Instant}
    (h : s.Answers w paths settings e written) :
    outcome (s.lookup paths settings) w = (.ok (some (e.tree, e.ledger)), w) := by
  rw [Store.lookup_run, answer_eq_some_iff.2 ⟨rfl, e, written, h, rfl⟩]

/-- An entry answers as well in a world where all that is asked of it is the same. -/
theorem Answers.congr {e : Envelope} {written : Instant} (hdirectory : w'.directory = w.directory)
    (hroot : w'.hasDirectory s.root = w.hasDirectory s.root)
    (hfile : w'.find? (s.fileIn w paths settings) = w.find? (s.fileIn w paths settings))
    (hpaths : ∀ p ∈ paths, w'.find? p = w.find? p)
    (hledger : w.entry (s.fileIn w paths settings) = .ok e →
      e.ledger.changedIn w' written s.packages = e.ledger.changedIn w written s.packages) :
    s.Answers w' paths settings e written ↔ s.Answers w paths settings e written := by
  have hname : s.fileIn w' paths settings = s.fileIn w paths settings := by
    rw [fileIn, fileIn, hdirectory]
  have hmodified {p : FilePath} (hp : w'.find? p = w.find? p) : w'.modified? p = w.modified? p := by
    rw [World.modified?, World.modified?, hp]
  have hentry : w'.entry (s.fileIn w' paths settings) = .ok e ↔
      w.entry (s.fileIn w paths settings) = .ok e := by
    rw [hname, World.entry_eq_ok_iff, World.entry_eq_ok_iff, hfile]
  constructor
  · intro h
    exact {
      root := hroot ▸ h.root
      dated := by rw [← hmodified hfile, ← hname, h.dated]
      fresh := fun p hp => by
        rw [← hmodified (hpaths p hp)]
        exact h.fresh p hp
      entry := hentry.1 h.entry
      engine := h.engine
      unchanged := hledger (hentry.1 h.entry) ▸ h.unchanged }
  · intro h
    exact {
      root := hroot ▸ h.root
      dated := by rw [hname, hmodified hfile, h.dated]
      fresh := fun p hp => by
        rw [hmodified (hpaths p hp)]
        exact h.fresh p hp
      entry := hentry.2 h.entry
      engine := h.engine
      unchanged := hledger h.entry ▸ h.unchanged }

/-- Worlds with the same files have the same answers. -/
theorem Answers.of_sameFiles {e : Envelope} {written : Instant}
    (h : s.Answers w paths settings e written) (hsame : SameFiles w w') :
    s.Answers w' paths settings e written := by
  refine (Answers.congr hsame.directory (hsame.hasDirectory_eq _) (hsame.find?_eq _)
    (fun p _ => hsame.find?_eq p) fun _ => ?_).2 h
  simp only [Ledger.changedIn, Record.staleIn, World.modified?, Missed.target,
    Packages.directoryIn, hsame.find?_eq, funext hsame.hasDirectory_eq]

theorem answer_fst_eq_some_iff {hit : Tree × Ledger} :
    (s.answer w paths settings).1 = some hit ↔
      ∃ e written, s.Answers w paths settings e written ∧ hit = (e.tree, e.ledger) := by
  constructor
  · intro h
    exact (answer_eq_some_iff.1 (Prod.ext h rfl)).2
  · intro h
    rw [answer_eq_some_iff.2 ⟨rfl, h⟩]

/-- A request has the same answer in a world that differs only in files to which nothing leads that
is asked about. -/
theorem answer_fst_eq {S : Place → Prop} (hw : SameOutside S w w')
    (hfile : w.Avoids S (s.fileIn w paths settings)) (hpaths : ∀ p ∈ paths, w.Avoids S p)
    (hledger : ∀ e, w.entry (s.fileIn w paths settings) = .ok e → e.ledger.Apart w S s.packages) :
    (s.answer w' paths settings).1 = (s.answer w paths settings).1 := by
  refine Option.ext fun hit => ?_
  rw [answer_fst_eq_some_iff, answer_fst_eq_some_iff]
  refine exists₂_congr fun e written => and_congr_left fun _ => ?_
  exact Answers.congr hw.directory (hw.hasDirectory_eq _) (hw.find?_eq hfile)
    (fun p hp => hw.find?_eq (hpaths p hp)) fun hentry => (hledger e hentry).changedIn_eq hw _

/-- Looking up a request discards its entry or changes nothing. -/
theorem answer_world (s : Store) (w : World) (paths : List FilePath) (settings : List String) :
    (s.answer w paths settings).2 = w ∨
      (s.answer w paths settings).2 = (w.removeFile (s.fileIn w paths settings)).2 ∨
      ∃ e, (s.answer w paths settings).2 = spoiled w (s.fileIn w paths settings) e := by
  simp only [answer]
  split
  · exact .inl rfl
  split
  · exact .inl rfl
  split
  · exact .inl rfl
  split
  next e _ => exact .inr (.inr ⟨e, by dsimp only⟩)
  split
  · exact .inr (.inl (by dsimp only))
  split <;> exact .inl rfl

end Store

end LayeredConfig
