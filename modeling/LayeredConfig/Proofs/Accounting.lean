import LayeredConfig.Proofs.Footprint
import LayeredConfig.Proofs.Ledger.Union
import LayeredConfig.Proofs.Meetings
import LayeredConfig.Proofs.Resolution

/-!
# The account a ledger gives

Without a cache the ledger of a load is an exact account of it. It records the files whose
documents were read, in the order of reading and each once, with all that is known of them; and it
notes, for each entry that was met and names no file, every place where its file was looked for.

Ledgers are made in pieces, one for each file that is loaded, and joined on several levels. The
account of a step is what it adds to the ledger it begins with; accounts of steps in a row are put
one after the other.
-/

namespace LayeredConfig

variable {α β : Type}

/-! ## What is accounted for -/

/-- The record has all that is known of a file in a world. -/
structure Record.IsFull (w : World) (path : FilePath) (r : Record) : Prop where
  observed : ∃ content t, w.find? path = some (.file content t) ∧
    r.hash = some (Sha256.hex content) ∧ r.modified = t.epochSeconds ∧ r.date = some t.calendarText
  present : r.missing = false
  own : r.origin = none
  plain : r.attributes = []

namespace Meeting

/-- The entry was met in a world, and is optional if it names no file. -/
structure In (s : Settings) (w : World) (m : Meeting) : Prop where
  parsed : IncludeEntry.parse m.raw = .ok m.entry
  met : m = s.meeting w m.owner m.raw m.entry
  optional : m.found = none → m.entry.optional = true

/-- What is to be noted of an entry, seen from a working directory. -/
def misses (directory : FilePath) (m : Meeting) : List (FilePath × Missed) :=
  if m.found.isSome then []
  else
    match m.entry.package with
    | some package => [(⟨m.raw⟩, ⟨⟨m.raw⟩, m.owner, some package, some ⟨m.entry.path⟩⟩)]
    | none => m.searched.map fun place =>
      let place := FilePath.normalize directory place
      (place, ⟨place, m.owner, none, none⟩)

end Meeting

/-- A run that leads from one world to another has read the documents of the files recorded, and
has met some entries. -/
structure Accounted (s : Settings) (w w' : World) (met : List Meeting)
    (recorded : List (FilePath × Record)) : Prop where
  read : w'.parsed = w.parsed ++ recorded.map Prod.fst
  same : SameFiles w w'
  full : ∀ e ∈ recorded, e.1.IsNormal ∧ e.2.IsFull w e.1
  entries : ∀ m ∈ met, m.In s w

/-- The ledger of what was recorded and met. -/
def accountOf (w : World) (met : List Meeting) (recorded : List (FilePath × Record)) : Ledger :=
  ⟨recorded, met.flatMap (Meeting.misses w.directory)⟩

/-- The entries of a ledger and of an account of what came after. -/
theorem update_accountOf_append (l : Ledger) (w : World) (met met' : List Meeting)
    (recorded recorded' : List (FilePath × Record)) :
    l.update (accountOf w (met ++ met') (recorded ++ recorded')) =
      (l.update (accountOf w met recorded)).update (accountOf w met' recorded') := by
  simp only [accountOf, Ledger.update_eq, List.flatMap_append, Ledger.notes_append]

/-- A ledger that gives an account from the beginning adds it to any other. -/
theorem update_update_empty (l m : Ledger) : l.update (Ledger.empty.update m) = l.update m :=
  Ledger.update_update l Ledger.empty m

namespace SameFiles

variable {w w' : World} {s : Settings}

theorem isFull (h : SameFiles w w') {path : FilePath} {r : Record} (hr : r.IsFull w' path) :
    r.IsFull w path := by
  obtain ⟨content, t, hfile, hknown⟩ := hr.observed
  exact ⟨⟨content, t, by rw [← h.find?_eq, hfile], hknown⟩, hr.present, hr.own, hr.plain⟩

theorem meeting_eq (h : SameFiles w w') (owner : FilePath) (raw : String) (entry : IncludeEntry) :
    s.meeting w' owner raw entry = s.meeting w owner raw entry := by
  rw [Settings.meeting, Settings.meeting, h.places_eq, h.hasFile_eq, h.directory]

theorem meeting_in (h : SameFiles w w') {m : Meeting} (hm : m.In s w') : m.In s w where
  parsed := hm.parsed
  met := by rw [← h.meeting_eq]; exact hm.met
  optional := hm.optional

end SameFiles

namespace Accounted

variable {s : Settings} {w w₁ w₂ : World} {met₁ met₂ : List Meeting}
  {recorded₁ recorded₂ : List (FilePath × Record)}

theorem nothing {w w' : World} (hparsed : w'.parsed = w.parsed) (hsame : SameFiles w w') :
    Accounted s w w' [] [] :=
  ⟨by simp [hparsed], hsame, nofun, nofun⟩

theorem trans (h₁ : Accounted s w w₁ met₁ recorded₁) (h₂ : Accounted s w₁ w₂ met₂ recorded₂) :
    Accounted s w w₂ (met₁ ++ met₂) (recorded₁ ++ recorded₂) where
  read := by rw [h₂.read, h₁.read, List.map_append, List.append_assoc]
  same := h₁.same.trans h₂.same
  full := List.forall_mem_append.2 ⟨h₁.full, fun e he =>
    ⟨(h₂.full e he).1, h₁.same.isFull (h₂.full e he).2⟩⟩
  entries := List.forall_mem_append.2 ⟨h₁.entries, fun m hm =>
    h₁.same.meeting_in (h₂.entries m hm)⟩

end Accounted

/-! ## Steps that give an account -/

/-- If the step has a result, it has added to the ledger what it met and read. It has read the files
that were due before and those it found, one after the other, but for some that are `left` to be
read; these and the result are in `Q`. -/
def Clears (s : Settings) (due : List FilePath) (x : Relating α)
    (Q : α → List FilePath → Prop) : Prop :=
  ∀ ⦃p w a p' w'⦄, outcome (x.plain.run p) w = (.ok (a, p'), w') →
    ∃ recorded left, Accounted s w w' ((x.run p).meets w) recorded ∧
      p'.ledger = p.ledger.update (accountOf w ((x.run p).meets w) recorded) ∧
      due ++ ((x.run p).meets w).filterMap Meeting.found = recorded.map Prod.fst ++ left ∧
      Q a left

theorem Clears.bind {s : Settings} {due : List FilePath} {x : Relating α}
    {f : α → Relating β} {Q : α → List FilePath → Prop} {R : β → List FilePath → Prop}
    (hx : Clears s due x Q) (hf : ∀ a left, Q a left → Clears s left (f a) R) :
    Clears s due (x >>= f) R := by
  intro p w b p' w' hrun
  obtain ⟨a, p₁, w₁, hrun₁, hrun₂⟩ :=
    run_bind_ok (x := x.plain) (f := fun a => (f a).plain) hrun
  obtain ⟨recorded₁, left₁, h₁, hledger₁, hread₁, ha⟩ := hx hrun₁
  obtain ⟨recorded₂, left₂, h₂, hledger₂, hread₂, hb⟩ := hf a left₁ ha hrun₂
  have hmeets : ((x >>= f).run p).meets w =
      (x.run p).meets w ++ ((f a).run p₁).meets w₁ :=
    congrArg _ (Telling.after_of_ok hrun₁ fun r w => ((f r.1).run r.2).meets w)
  rw [hmeets]
  refine ⟨recorded₁ ++ recorded₂, left₂, h₁.trans h₂, ?_, ?_, hb⟩
  · rw [update_accountOf_append, ← hledger₁, hledger₂, accountOf, accountOf, h₁.same.directory]
  · rw [List.filterMap_append, ← List.append_assoc, hread₁, List.append_assoc, hread₂,
      List.map_append, List.append_assoc]

/-- The step gives an account of itself if it has a result, which is in `Q` then: it has read the
files that it found. -/
def Accounts (s : Settings) (x : Relating α) (Q : α → Prop) : Prop :=
  Clears s [] x fun a left => Q a ∧ left = []

namespace Accounts

variable {s : Settings} {Q : α → Prop} {R : β → Prop}

/-- A step that neither reads nor meets anything and leaves the ledger alone. -/
theorem quiet {x : Resolving InWorld α}
    (h : ∀ ⦃p w a p' w'⦄, outcome (x.run p) w = (.ok (a, p'), w') →
      Q a ∧ p'.ledger = p.ledger ∧ w' = w) : Accounts s (Relating.quiet x) Q := by
  intro p w a p' w' hrun
  obtain ⟨ha, hledger, rfl⟩ := h hrun
  exact ⟨[], [], Accounted.nothing rfl (SameFiles.refl _), hledger, rfl, ha, rfl⟩

theorem pure {a : α} (h : Q a) : Accounts s (pure a) Q :=
  quiet (x := Pure.pure a) fun _ _ _ _ _ hrun => by
    cases hrun
    exact ⟨h, rfl, rfl⟩

theorem bind {x : Relating α} {f : α → Relating β} (hx : Accounts s x Q)
    (hf : ∀ a, Q a → Accounts s (f a) R) : Accounts s (x >>= f) R := by
  refine Clears.bind hx fun a left h => ?_
  obtain ⟨ha, rfl⟩ := h
  exact hf a ha

theorem get : Accounts s get fun _ => True :=
  quiet (x := MonadStateOf.get) fun _ _ _ _ _ hrun => by
    cases hrun
    exact ⟨trivial, rfl, rfl⟩

theorem fail {c : Scope InWorld} {location : String} {reason : Unresolved} :
    Accounts s (Relating.quiet (c.fail location reason)) Q :=
  quiet fun _ _ _ _ _ hrun => by cases hrun

theorem orFail {c : Scope InWorld} {location : String} {x : Except Directive.Fault α} :
    Accounts s (Relating.quiet (c.orFail location x)) fun a => x = .ok a := by
  cases x with
  | ok a => exact pure rfl
  | error fault => exact fail

end Accounts

/-- If a load has a result, its ledger is the account of it. It has read the files that are due and
those it found. -/
def AccountsFor (s : Settings) (due : List FilePath) (x : Telling (Tree × Ledger)) : Prop :=
  ∀ ⦃w t l w'⦄, outcome x.run w = (.ok (t, l), w') →
    ∃ recorded, Accounted s w w' (x.meets w) recorded ∧
      l = Ledger.empty.update (accountOf w (x.meets w) recorded) ∧
      due ++ (x.meets w).filterMap Meeting.found = recorded.map Prod.fst

/-! ## Finding files -/

namespace Scope

open Relating (quiet)

variable {c : Scope InWorld} {p p' : Progress} {w w' : World}

/-- Every place where an optional file was looked for is noted. -/
theorem noteMissed_run (howner : c.owner.IsNormal) {raw : String} {entry : IncludeEntry}
    (hnone : (c.settings.places w c.owner entry).find? w.hasFile = none) (p : Progress) :
    outcome ((c.noteMissed raw entry (c.settings.places w c.owner entry)).run p) w =
      (.ok ((), { p with
        ledger := p.ledger.update
          (accountOf w [c.settings.meeting w c.owner raw entry] []) }), w) := by
  have hmisses : (c.settings.meeting w c.owner raw entry).misses w.directory =
      match entry.package with
      | some package => [(⟨raw⟩, ⟨⟨raw⟩, c.owner, some package, some ⟨entry.path⟩⟩)]
      | none => (c.settings.places w c.owner entry).map fun place =>
        let place := FilePath.normalize w.directory place
        (place, ⟨place, c.owner, none, none⟩) := by
    rw [Meeting.misses, Settings.meeting, if_neg (by simp [hnone])]
  rw [accountOf, Ledger.update_eq, List.flatMap_singleton, hmisses, noteMissed]
  have hnormal := howner.normalize_eq w.directory
  cases entry.package with
  | some package =>
    have hmiss : outcome ((p.ledger.miss ⟨raw⟩ c.owner (some package) (some ⟨entry.path⟩) :
        Resolving InWorld Ledger).run p) w =
        (.ok (p.ledger.addMissed ⟨⟨raw⟩, c.owner, some package, some ⟨entry.path⟩⟩, p), w) := by
      conv => rhs; rw [← hnormal]
      rfl
    change outcome ((p.ledger.miss ⟨raw⟩ c.owner (some package) (some ⟨entry.path⟩) >>=
      fun ledger => modify fun progress => { progress with ledger := ledger } :
        Resolving InWorld Unit).run p) w = _
    rw [StateT.run_bind, outcome_bind_of_ok hmiss]
    rfl
  | none =>
    generalize c.settings.places w c.owner entry = places
    have hmiss : ∀ (l : Ledger) (place : FilePath),
        outcome ((l.miss place c.owner none none : Resolving InWorld Ledger).run p) w =
          (.ok (l.addMissed ⟨FilePath.normalize w.directory place, c.owner, none, none⟩, p),
            w) := by
      intro l place
      conv => rhs; rw [← hnormal]
      rfl
    have hall : ∀ l : Ledger, outcome ((places.foldlM (fun l place =>
        l.miss place c.owner none none) l : Resolving InWorld Ledger).run p) w =
        (.ok (⟨l.records, Ledger.notes l.missed (places.map fun place =>
          (FilePath.normalize w.directory place,
            ⟨FilePath.normalize w.directory place, c.owner, none, none⟩))⟩, p), w) := by
      induction places with
      | nil => exact fun _ => rfl
      | cons place rest ih =>
        intro l
        rw [List.foldlM_cons, StateT.run_bind, outcome_bind_of_ok (hmiss l place), ih]
        rfl
    change outcome ((places.foldlM (fun l place => l.miss place c.owner none none) p.ledger >>=
      fun ledger => modify fun progress => { progress with ledger := ledger } :
        Resolving InWorld Unit).run p) w = _
    rw [StateT.run_bind, outcome_bind_of_ok (hall p.ledger)]
    rfl

/-- The search for an entry ends with what its meeting says: with the file that was found, or with
the places noted where the file of an optional entry was looked for, which may be warned of. -/
theorem find_ok (howner : c.owner.IsNormal) {raw : String} {entry : IncludeEntry}
    {location : String} {found : Option FilePath}
    (hrun : outcome ((c.find raw entry location).run p) w = (.ok (found, p'), w')) :
    let m := c.settings.meeting w c.owner raw entry
    found = m.found ∧ (m.found = none → entry.optional = true) ∧
      p' = { p with ledger := p.ledger.update (accountOf w [m] []) } ∧
      ∃ warnings, w' = { w with warnings := warnings } := by
  intro m
  rw [find, StateT.run_bind, outcome_bind_of_ok (candidates_run entry p w), StateT.run_bind,
    outcome_bind_of_ok (firstFile_run _ p w)] at hrun
  cases hfirst : (c.settings.places w c.owner entry).find? w.hasFile with
  | some file =>
    have hfound : m.found = some (FilePath.normalize w.directory file) := by
      change ((c.settings.places w c.owner entry).find? w.hasFile).map _ = _
      rw [hfirst]
      rfl
    have hnothing : accountOf w [m] [] = Ledger.empty := by
      rw [accountOf, List.flatMap_singleton, Meeting.misses, if_pos (by rw [hfound]; rfl)]
      rfl
    rw [hfirst] at hrun
    cases hrun
    rw [hfound, hnothing]
    exact ⟨rfl, nofun, rfl, w.warnings, rfl⟩
  | none =>
    have hfound : m.found = none := by
      change ((c.settings.places w c.owner entry).find? w.hasFile).map _ = _
      rw [hfirst]
      rfl
    rw [hfirst] at hrun
    dsimp only at hrun
    split at hrun
    next hoptional =>
      -- A warning changes nothing that is asked afterwards.
      have hnoted : ∀ warnings, outcome ((do
            c.noteMissed raw entry (c.settings.places w c.owner entry)
            return none : Resolving InWorld (Option FilePath)).run p)
              { w with warnings := warnings } = (.ok (found, p'), w') →
          found = none ∧ p' = { p with ledger := p.ledger.update (accountOf w [m] []) } ∧
            ∃ warnings, w' = { w with warnings := warnings } := by
        intro warnings hrun
        have hsame : SameFiles w { w with warnings := warnings } := ⟨rfl, rfl, rfl⟩
        rw [← hsame.places_eq, StateT.run_bind, outcome_bind_of_ok (noteMissed_run howner
          (by rw [hsame.places_eq, hsame.hasFile_eq, hfirst]) p)] at hrun
        cases hrun
        rw [hsame.meeting_eq]
        exact ⟨rfl, rfl, warnings, rfl⟩
      have hdone : found = none ∧
          p' = { p with ledger := p.ledger.update (accountOf w [m] []) } ∧
            ∃ warnings, w' = { w with warnings := warnings } := by
        split at hrun
        · exact hnoted (w.warnings ++ [_]) hrun
        · exact hnoted w.warnings hrun
      rw [hfound]
      exact ⟨hdone.1, fun _ => hoptional, hdone.2⟩
    · split at hrun
      · cases hrun
      · cases hrun

/-- Finding the file of an entry gives an account of the entry; the file is left to be read. -/
theorem clears_find (howner : c.owner.IsNormal) {raw : String} {entry : IncludeEntry}
    (hparse : IncludeEntry.parse raw = .ok entry) (location : String) :
    Clears c.settings [] (c.tellFind raw entry location) fun found left =>
      (∀ file, found = some file → file.IsNormal) ∧ left = found.toList := by
  intro p w found p' w' hrun
  obtain ⟨rfl, hoptional, rfl, warnings, rfl⟩ := find_ok howner hrun
  refine ⟨[], _, ⟨by simp, ⟨rfl, rfl, rfl⟩, nofun, ?_⟩, rfl, ?_, fun file hfile => ?_, rfl⟩
  · intro m hm
    rw [List.mem_singleton.1 hm]
    exact ⟨hparse, rfl, hoptional⟩
  · change [c.settings.meeting w c.owner raw entry].filterMap Meeting.found = _
    cases hfound : (c.settings.meeting w c.owner raw entry).found <;> simp [hfound]
  · obtain ⟨place, -, rfl⟩ := Option.map_eq_some_iff.1 hfile
    exact FilePath.isNormal_normalize _ _

/-! ## The steps of a resolution -/

section Resolving

variable {heard : FilePath → List FilePath → String → World → List Meeting} {f : Flattening}
  {location : String} {position : Position} {resolve : Tree → String → Relating Tree}

section Including

variable (howner : c.owner.IsNormal) (hheard : ∀ file chain location, file.IsNormal →
  AccountsFor c.settings [file] ⟨c.load file chain location, heard file chain location⟩)
include hheard

theorem clears_include {file : FilePath} (hfile : file.IsNormal) (merged : Tree) :
    Clears c.settings [file] (c.tellInclude heard f location merged file)
      fun _ left => left = [] := by
  intro p w t p' w' hrun
  change outcome ((c.includeFile f location merged file).run p) w = _ at hrun
  unfold includeFile at hrun
  split at hrun
  · cases hrun
  obtain ⟨⟨tree, ledger⟩, p₁, w₁, hload, hrest⟩ := run_bind_ok hrun
  obtain ⟨⟨tree', ledger'⟩, w₂, hload, hlift⟩ := outcome_bind_ok hload
  cases hlift
  obtain ⟨recorded, haccounted, rfl, hread⟩ := hheard file c.chain location hfile hload
  obtain ⟨_, p₂, w₂, hmodify, hrest⟩ := run_bind_ok hrest
  cases hmodify
  dsimp only at hrest
  split at hrest
  · cases hrest
  · cases hrest
    exact ⟨recorded, [], haccounted, update_update_empty _ _,
      by rw [List.append_nil]; exact hread, rfl⟩

include howner

theorem accounts_all (merged : Tree) (raws : List String) :
    Accounts c.settings (c.tellAll heard f location merged raws) fun _ => True := by
  induction raws generalizing merged with
  | nil => exact Accounts.pure trivial
  | cons raw rest ih =>
    unfold tellAll
    refine Accounts.orFail.bind fun entry hentry => ?_
    refine (clears_find howner hentry location).bind fun found left hfound => ?_
    obtain ⟨hnormal, rfl⟩ := hfound
    cases found with
    | none => exact ih merged
    | some file =>
      refine (clears_include hheard (hnormal file rfl) merged).bind fun merged left hleft => ?_
      subst hleft
      exact ih merged

end Including

theorem accounts_rebind {s : Settings} (es : Entries) :
    Accounts s (quiet (rebind position es)) fun _ => True := by
  refine Accounts.quiet fun p w a p' w' hrun => ⟨trivial, ?_⟩
  cases position with
  | none =>
    cases hrun
    exact ⟨rfl, rfl⟩
  | some path =>
    cases hrun
    exact ⟨rfl, rfl⟩

theorem accounts_isPending (es : Entries) :
    Accounts c.settings (quiet (c.isPending es)) fun _ => True :=
  Accounts.quiet fun p w a p' w' hrun => by
    rw [isPending_run] at hrun
    cases hrun
    exact ⟨trivial, rfl, rfl⟩

theorem accounts_mergeSections (sources : List Tree) (names : List String) :
    Accounts c.settings (quiet (c.mergeSections sources location .empty names)) fun _ => True := by
  refine Accounts.quiet fun p w t p' w' hrun => ⟨trivial, ?_⟩
  obtain ⟨rfl, rfl, -⟩ := mergeSections_ok hrun
  exact ⟨rfl, rfl⟩

section Using

variable (hresolve : ∀ base location, Accounts c.settings (resolve base location) fun _ => True)
include hresolve

theorem accounts_useStep (es : Entries) :
    Accounts c.settings (c.tellUseStep resolve f location position es) fun _ => True := by
  unfold tellUseStep
  refine Accounts.get.bind fun progress _ => ?_
  dsimp only
  split
  next sources value _ _ =>
    refine Accounts.bind (Q := fun _ => True) ?_ fun base _ =>
      (accounts_rebind _).bind fun _ _ => Accounts.pure trivial
    refine Accounts.orFail.bind fun names _ => ?_
    refine (accounts_mergeSections sources names).bind fun base _ => ?_
    exact (hresolve base location).bind fun _ _ => Accounts.pure trivial
  · exact Accounts.pure trivial

end Using

section Document

variable (howner : c.owner.IsNormal) (hheard : ∀ file chain location, file.IsNormal →
  AccountsFor c.settings [file] ⟨c.load file chain location, heard file chain location⟩)
include howner hheard

theorem accounts_includeStep (es : Entries) :
    Accounts c.settings (c.tellIncludeStep heard f location position es) fun _ => True := by
  unfold tellIncludeStep
  dsimp only
  split
  · exact Accounts.pure trivial
  · refine Accounts.bind (Q := fun _ => True) ?_ fun base _ =>
      (accounts_rebind _).bind fun _ _ => Accounts.pure trivial
    exact Accounts.orFail.bind fun raws _ => accounts_all howner hheard _ raws

theorem accounts_substitute
    (hresolve : ∀ base location, Accounts c.settings (resolve base location) fun _ => True)
    (passes : Nat) (es : Entries) :
    Accounts c.settings (c.tellSubstitute heard resolve f location position passes es)
      fun _ => True := by
  induction passes generalizing es with
  | zero =>
    unfold tellSubstitute
    refine (accounts_isPending es).bind fun pending _ => ?_
    cases pending with
    | false => exact Accounts.pure trivial
    | true => exact Accounts.fail
  | succ passes ih =>
    unfold tellSubstitute
    refine (accounts_isPending es).bind fun pending _ => ?_
    cases pending with
    | false => exact Accounts.pure trivial
    | true =>
      refine (accounts_includeStep howner hheard es).bind fun es _ => ?_
      exact (accounts_useStep hresolve es).bind fun es _ => ih es

end Document

/-! ## Trees -/

section Trees

variable {s : Settings} {onward : MappingTeller}

theorem accounts_entries {es : List (Tree × Tree)}
    (h : ∀ e ∈ es, ∀ location position,
      Accounts s (tellTree onward location position e.2) fun _ => True)
    (location : String) (position : Position) :
    Accounts s (tellEntries onward location position es) fun _ => True := by
  induction es with
  | nil =>
    unfold tellEntries
    exact Accounts.pure trivial
  | cons e rest ih =>
    unfold tellEntries
    refine (h e List.mem_cons_self _ _).bind fun _ _ => ?_
    exact (ih fun e he => h e (List.mem_cons_of_mem _ he)).bind fun _ _ => Accounts.pure trivial

theorem accounts_items {items : List Tree}
    (h : ∀ t ∈ items, ∀ location position,
      Accounts s (tellTree onward location position t) fun _ => True)
    (location : String) (position : Position) (i : Nat) :
    Accounts s (tellItems onward location position i items) fun _ => True := by
  induction items generalizing i with
  | nil =>
    unfold tellItems
    exact Accounts.pure trivial
  | cons t rest ih =>
    unfold tellItems
    refine (h t List.mem_cons_self _ _).bind fun _ _ => ?_
    exact (ih (fun t ht => h t (List.mem_cons_of_mem _ ht)) _).bind fun _ _ =>
      Accounts.pure trivial

theorem accounts_tree
    (honward : ∀ es location position, Accounts s (onward es location position) fun _ => True)
    (t : Tree) (location : String) (position : Position) :
    Accounts s (tellTree onward location position t) fun _ => True := by
  induction t using Tree.induction generalizing location position with
  | map es ih =>
    unfold tellTree
    split
    · exact honward _ _ _
    · exact (accounts_entries (fun e he => (ih e he).2) _ _).bind fun _ _ => Accounts.pure trivial
  | seq items ih =>
    unfold tellTree
    exact (accounts_items ih _ _ _).bind fun _ _ => Accounts.pure trivial
  | _ =>
    unfold tellTree
    exact Accounts.pure trivial

end Trees

section Document

variable (howner : c.owner.IsNormal) (hheard : ∀ file chain location, file.IsNormal →
  AccountsFor c.settings [file] ⟨c.load file chain location, heard file chain location⟩)
include howner hheard

theorem accounts_mapping
    (hresolve : ∀ base location, Accounts c.settings (resolve base location) fun _ => True)
    (room : Nat) (es : Entries) (location : String) (position : Position) :
    Accounts c.settings (c.tellMapping heard resolve room es location position)
      fun _ => True := by
  induction room generalizing es location position with
  | zero => exact Accounts.fail
  | succ room ih =>
    unfold tellMapping
    dsimp only
    refine Accounts.orFail.bind fun f _ => ?_
    refine (accounts_substitute howner hheard hresolve _ _).bind fun es _ => ?_
    refine Accounts.bind (Q := fun _ => True) ?_ fun _ _ => Accounts.pure trivial
    exact accounts_entries (fun e _ => accounts_tree ih e.2) _ _

theorem accounts_sections (levels : Nat) (base : Tree) (location : String) :
    Accounts c.settings (c.tellSections heard levels base location) fun _ => True := by
  induction levels generalizing base location with
  | zero => exact Accounts.fail
  | succ levels ih =>
    unfold tellSections
    exact accounts_tree (accounts_mapping howner hheard ih _) _ _ _

/-- Resolving a document gives an account of what it includes. -/
theorem accounts_document (location : String) (position : Position) (document : Tree) :
    Accounts c.settings (c.tellDocument heard location position document) fun _ => True :=
  accounts_tree (accounts_mapping howner hheard (accounts_sections howner hheard _) _) _ _ _

end Document

end Resolving

end Scope

/-! ## The loading of files -/

/-- A document is read from a file. -/
theorem World.find?_of_document {w : World} {path : FilePath} {document : Tree}
    (h : (w.document path).1 = some document) :
    ∃ content t, w.find? path = some (.file content t) ∧ w.content path = .ok content := by
  cases hcontent : w.content path with
  | error fault =>
    simp only [World.document, hcontent] at h
    cases h
  | ok content =>
    obtain ⟨t, hfile⟩ := World.content_eq_ok_iff.1 hcontent
    exact ⟨content, t, hfile, rfl⟩

/-- What is observed of a file is all that is known of it. -/
theorem observe_isFull {path : FilePath} {content : ByteArray} {t : Instant} {w w' : World}
    {r : Record} (hfile : w.find? path = some (.file content t))
    (hcontent : w.content path = .ok content)
    (hrun : outcome (Record.observe path []) w = (.ok r, w')) : r.IsFull w path := by
  have hstatus : outcome (Host.status path : ExceptT Error InWorld (Option Status)) w =
      (.ok (some ⟨false, t, content.size⟩), w) := by
    change (Except.ok ((w.find? path).map Node.status), w) = _
    rw [hfile]
    rfl
  have hread : outcome (Host.read path : ExceptT Error InWorld (Except SystemFault ByteArray)) w =
      (.ok (.ok content), w) := by
    rw [← hcontent]
    rfl
  rw [Record.observe, outcome_bind_of_ok hstatus] at hrun
  dsimp only at hrun
  rw [if_neg (by simp), outcome_bind_of_ok hread] at hrun
  obtain ⟨hash, w₁, hhash, hrun⟩ := outcome_bind_ok hrun
  cases hhash
  obtain ⟨git, w₁, -, hrun⟩ := outcome_bind_ok hrun
  cases hrun
  exact ⟨⟨content, t, hfile, rfl, rfl, rfl⟩, rfl, rfl, rfl⟩

namespace Settings

variable {s : Settings} {o : LoadOptions}

theorem normalize_run {path : FilePath} (hpath : path.IsNormal) (w : World) :
    outcome (Host.normalize path : ExceptT Error InWorld FilePath) w = (.ok path, w) := by
  have hnormal := hpath.normalize_eq w.directory
  conv => rhs; rw [← hnormal]
  rfl

/-- The file whose document is read is recorded first. -/
theorem accounted_add {path : FilePath} (hpath : path.IsNormal) {document : Tree} {w w₁ w₂ : World}
    {l : Ledger} (hread : outcome (Host.document path : ExceptT Error InWorld _) w =
      (.ok (some document), w₁))
    (hadd : outcome (Ledger.empty.add path : ExceptT Error InWorld Ledger) w₁ = (.ok l, w₂)) :
    ∃ r, Accounted s w w₂ [] [(path, r)] ∧
      l = Ledger.empty.update (accountOf w [] [(path, r)]) := by
  change (Except.ok (w.document path).1, (w.document path).2) = _ at hread
  obtain ⟨hdocument, rfl⟩ := Prod.mk.inj hread
  obtain ⟨content, t, hfile, hcontent⟩ := World.find?_of_document (Except.ok.inj hdocument)
  have hsame : SameFiles w (w.document path).2 := ⟨rfl, rfl, rfl⟩
  obtain ⟨hparsed, hfiles⟩ :=
    (leaves_add (SameFiles.unnoted w).noting Ledger.empty path).related hadd
  rw [Ledger.add, Ledger.track, outcome_bind_of_ok (normalize_run hpath _)] at hadd
  obtain ⟨r, w₃, hobserve, hadd⟩ := outcome_bind_ok hadd
  cases hadd
  have hfull := observe_isFull (by rw [hsame.find?_eq, hfile]) (by rw [hsame.content_eq, hcontent])
    hobserve
  refine ⟨r, ⟨hparsed, hfiles hsame, fun e he => ?_, nofun⟩, rfl⟩
  rw [List.mem_singleton.1 he]
  exact ⟨hpath, hsame.isFull hfull⟩

/-- Resolving a document for a request gives an account of what it includes. -/
theorem accountsFor_resolve {load : FilePath → List FilePath → String →
      ExceptT Error InWorld (Tree × Ledger)}
    {heard : FilePath → List FilePath → String → World → List Meeting} {request : Request}
    (hpath : request.path.IsNormal) (hheard : ∀ file chain location, file.IsNormal →
      AccountsFor s [file] ⟨load file chain location, heard file chain location⟩) (document : Tree) :
    AccountsFor s [] (s.tellResolve load heard request document) := by
  intro w t l w' hrun
  generalize hmet : (s.tellResolve load heard request document).meets w = met
  rw [tellResolve] at hrun hmet
  obtain ⟨room, w₁, hroom, hrun, hmeets⟩ := Telling.quiet_bind_ok hrun
  cases hroom
  rw [hmeets] at hmet
  dsimp only at hrun hmet
  obtain ⟨⟨tree, progress⟩, w₂, hdocument, hdone, hmeets⟩ := Telling.bind_quiet_ok
    (f := fun r : Tree × Progress => pure (r.1, r.2.ledger)) hrun
  cases hdone
  obtain rfl := hmeets.symm.trans hmet
  obtain ⟨recorded, left, haccounted, hledger, hread, -, rfl⟩ :=
    Scope.accounts_document hpath hheard _ _ document hdocument
  exact ⟨recorded, haccounted, hledger, hread.trans (List.append_nil _)⟩

/-- Without a cache, the ledger of a file is the account of its load. -/
theorem accountsFor_file (hcache : s.cache = none) (budget : Nat) (request : Request)
    (hpath : request.path.IsNormal) : AccountsFor s [request.path] (s.tellFile budget request) := by
  induction budget generalizing request with
  | zero =>
    intro w t l w' hrun
    cases hrun
  | succ budget ih =>
    intro w t l w' hrun
    generalize hmet : (s.tellFile (budget + 1) request).meets w = met
    have hstore : s.storeFor? request.cacheKeys = none := by simp [storeFor?, store?, hcache]
    rw [tellFile, hstore] at hrun hmet
    obtain ⟨hit, w₁, hcached, hrun, hmeets⟩ := Telling.quiet_bind_ok hrun
    cases hcached
    rw [hmeets] at hmet
    obtain ⟨document, w₁, hread, hrun, hmeets⟩ := Telling.quiet_bind_ok hrun
    dsimp only at hmet
    rw [hmeets] at hmet
    cases document with
    | none => cases hrun
    | some document =>
      obtain ⟨ledger, w₂, hadd, hrun, hmeets⟩ := Telling.quiet_bind_ok hrun
      dsimp only at hmet
      rw [hmeets] at hmet
      obtain ⟨⟨tree, consulted⟩, w₃, hresolve, hkeep, hmeets⟩ := Telling.bind_quiet_ok
        (f := fun r : Tree × Ledger => keep none [request.path] request.path.text
          (withPath request.pathField request.path r.1) (ledger.update r.2)) hrun
      obtain rfl := hmeets.symm.trans hmet
      cases hkeep
      obtain ⟨r, hfirst, rfl⟩ := accounted_add (s := s) hpath hread hadd
      have hheard : ∀ file chain location, file.IsNormal → AccountsFor s [file]
          ⟨s.loadFile budget (s.includedRequest request.pathField file chain location),
            (s.tellFile budget (s.includedRequest request.pathField file chain location)).meets⟩ := by
        intro file chain location hfile
        rw [← tellFile_run]
        exact ih _ hfile
      obtain ⟨recorded, hrest, rfl, hread⟩ := accountsFor_resolve hpath hheard document hresolve
      refine ⟨(request.path, r) :: recorded, hfirst.trans hrest, ?_,
        congrArg (request.path :: ·) hread⟩
      have hlater : ∀ met, accountOf w₂ met recorded = accountOf w met recorded := fun met => by
        rw [accountOf, accountOf, hfirst.same.directory]
      rw [update_update_empty, hlater]
      exact (update_accountOf_append Ledger.empty w [] _ [(request.path, r)] recorded).symm

/-- Without a cache the ledger of a load is an exact account of it: it records the files that were
parsed, in the order of parsing and each once, the loaded file first, and each with all that was
known of it; and it notes every place where the file of an unsatisfied entry was looked for, of all
entries that were met. -/
theorem ledger_accounts_for_load (hcache : s.cache = none) {path : FilePath} {w w' : World}
    {t : Tree} {l : Ledger} (h : outcome (s.load path o) w = (.ok (t, l), w')) :
    let met := (s.tellLoad path o).meets w
    let read := FilePath.normalize w.directory path :: met.filterMap Meeting.found
    (s.tellLoad path o).run = s.load path o ∧
      (∀ m ∈ met, m.In s w) ∧
      w'.parsed = w.parsed ++ read ∧
      l.records.map Prod.fst = read.eraseDups ∧
      (∀ e ∈ l.records, e.2.IsFull w e.1) ∧
      l.missed = Ledger.firsts (met.flatMap (Meeting.misses w.directory)) := by
  have haccount : ∃ recorded, Accounted s w w' ((s.tellLoad path o).meets w) recorded ∧
      l = Ledger.empty.update (accountOf w ((s.tellLoad path o).meets w) recorded) ∧
      FilePath.normalize w.directory path ::
        ((s.tellLoad path o).meets w).filterMap Meeting.found = recorded.map Prod.fst := by
    rw [← tellLoad_run] at h
    generalize hmet : (s.tellLoad path o).meets w = met
    rw [tellLoad] at h hmet
    obtain ⟨file, w₁, hfile, h, hmeets⟩ := Telling.quiet_bind_ok h
    cases hfile
    rw [hmeets] at hmet
    obtain ⟨bound, w₁, hbound, h, hmeets⟩ := Telling.quiet_bind_ok h
    cases hbound
    rw [hmeets] at hmet
    subst hmet
    exact accountsFor_file hcache _ _ (FilePath.isNormal_normalize w.directory path) h
  obtain ⟨recorded, haccounted, rfl, hread⟩ := haccount
  intro met read
  rw [show read = recorded.map Prod.fst from hread]
  have hrecords := Ledger.notes_empty recorded
  refine ⟨tellLoad_run path o, haccounted.entries, haccounted.read, ?_, fun e he => ?_,
    Ledger.notes_empty _⟩
  · rw [← Ledger.map_fst_firsts fun e he => (haccounted.full e he).1, ← hrecords]
    rfl
  · have hmem : e ∈ Ledger.notes [] recorded := he
    exact (haccounted.full e ((Ledger.mem_of_mem_notes hmem).resolve_left nofun)).2

/-- A world with a file that is included twice, one that a reused section includes, one that is
missing, and an entry of a package that is not there. -/
def visited : World :=
  .holding [
    (["root.yml"], .file ("_include: [a.yml, b.yml]\nn: \x7b_use: s\x7d\n".toUTF8
      ++ "s: \x7b_include: [c.yml, 'gone.yml[optional]']\x7d\n".toUTF8) ⟨5⟩),
    (["a.yml"], .file "_include: [b.yml, '(p)q.yml[optional]']\n".toUTF8 ⟨6⟩),
    (["b.yml"], .file "b: 1\n".toUTF8 ⟨7⟩),
    (["c.yml"], .file "c: 1\n".toUTF8 ⟨8⟩)]

/-- The entries that a load of its first file meets. -/
def visits : List Meeting :=
  let entry (path : String) : IncludeEntry := ⟨path, none, false, false⟩
  let found (owner file : String) : Meeting :=
    ⟨⟨"/" ++ owner⟩, file, entry file, [⟨"/" ++ file⟩, ⟨"/" ++ file⟩], some ⟨"/" ++ file⟩⟩
  let gone : Meeting := ⟨⟨"/root.yml"⟩, "gone.yml[optional]", ⟨"gone.yml", none, true, false⟩,
    [⟨"/gone.yml"⟩, ⟨"/gone.yml"⟩], none⟩
  let unknown : Meeting := ⟨⟨"/a.yml"⟩, "(p)q.yml[optional]", ⟨"q.yml", some "p", true, false⟩, [],
    none⟩
  [found "root.yml" "a.yml", found "a.yml" "b.yml", unknown, found "root.yml" "b.yml",
    found "root.yml" "c.yml", gone, found "root.yml" "c.yml", gone]

theorem visited_ledger_accounts :
    ∃ t l w', outcome (Settings.default.load ⟨"root.yml"⟩ LoadOptions.default) visited =
        (.ok (t, l), w') ∧
      w'.parsed = [⟨"/root.yml"⟩, ⟨"/a.yml"⟩, ⟨"/b.yml"⟩, ⟨"/b.yml"⟩, ⟨"/c.yml"⟩, ⟨"/c.yml"⟩] ∧
      l.records.map Prod.fst = [⟨"/root.yml"⟩, ⟨"/a.yml"⟩, ⟨"/b.yml"⟩, ⟨"/c.yml"⟩] ∧
      (∀ e ∈ l.records, e.2.IsFull visited e.1) ∧
      l.missed.map Prod.fst = [⟨"(p)q.yml[optional]"⟩, ⟨"/gone.yml"⟩] := by
  have hruns : succeeds (Settings.default.load ⟨"root.yml"⟩ LoadOptions.default) visited
      (fun _ _ => true) ∧
      (Settings.default.tellLoad ⟨"root.yml"⟩ LoadOptions.default).meets visited = visits := by
    decide +kernel
  obtain ⟨hrun, hmet⟩ := hruns
  obtain ⟨⟨t, l⟩, w', hload, -⟩ := succeeds_iff.1 hrun
  obtain ⟨-, -, hparsed, hrecords, hfull, hmissed⟩ :=
    ledger_accounts_for_load (s := Settings.default) rfl hload
  have hread : FilePath.normalize visited.directory ⟨"root.yml"⟩ ::
      visits.filterMap Meeting.found =
      [⟨"/root.yml"⟩, ⟨"/a.yml"⟩, ⟨"/b.yml"⟩, ⟨"/b.yml"⟩, ⟨"/c.yml"⟩, ⟨"/c.yml"⟩] := by
    decide +kernel
  rw [hmet, hread] at hparsed hrecords
  rw [hmet] at hmissed
  refine ⟨t, l, w', hload, hparsed, hrecords.trans (by decide +kernel), hfull, ?_⟩
  rw [hmissed]
  decide +kernel

end Settings

end LayeredConfig
