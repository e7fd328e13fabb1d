import LayeredConfig.Proofs.Collapsing

/-!
# Histories of ledgers

A ledger comes about by edits, one after the other, each in a world of its own: paths are recorded,
missed files are noted, a directory is put in place of the files below it, and another ledger that
has come about in this way is taken up. Whatever the edits, its paths are different and in normal
form, and each record is a pointer, a sentinel or the full record of a file
(`history_of_built_ledger`). Edits append; only collapses touch what is there, and only the records
whose paths they match.
-/

namespace LayeredConfig

/-! ## Running without failures -/

namespace InWorld

variable {α β : Type}

theorem run_bind (x : InWorld α) (f : α → InWorld β) (w : World) :
    (x >>= f).run w = (f (x.run w).1).run (x.run w).2 := rfl

theorem run_status (path : FilePath) (w : World) :
    (Host.status path : InWorld _).run w = ((w.find? path).map Node.status, w) := rfl

theorem run_normalize (path : FilePath) (w : World) :
    (Host.normalize path : InWorld _).run w = (FilePath.normalize w.directory path, w) := rfl

end InWorld

/-! ## Kinds of records -/

namespace Record

/-- What a record can be. -/
inductive Kind where
  /-- Another entry stands for it. -/
  | pointer
  /-- There was nothing at the path. -/
  | sentinel
  /-- What was known of a file or directory. -/
  | full
deriving DecidableEq, Repr

/-- The record is of a kind. -/
def Is (r : Record) : Kind → Prop
  | .pointer => (∃ path, r.origin = some path ∧ path.IsNormal) ∧ r.modified = .zero ∧
      r.date = none ∧ r.hash = none ∧ r.git = none ∧ r.missing = false
  | .sentinel => r.missing = true ∧ r.modified = .zero ∧ r.date = none ∧ r.hash = none ∧
      r.git = none ∧ r.origin = none
  | .full => r.date.isSome ∧ r.origin = none ∧ r.missing = false

/-- The only kind that a record may be of. -/
def kind (r : Record) : Kind :=
  if r.origin.isSome then .pointer else if r.missing then .sentinel else .full

variable {r : Record} {k : Kind}

theorem Is.eq_kind (h : r.Is k) : k = r.kind := by
  cases k with
  | pointer =>
    obtain ⟨⟨path, hpath, -⟩, -⟩ := h
    rw [kind, hpath]
    rfl
  | sentinel =>
    obtain ⟨hmissing, -, -, -, -, horigin⟩ := h
    rw [kind, horigin, hmissing]
    rfl
  | full =>
    obtain ⟨-, horigin, hmissing⟩ := h
    rw [kind, horigin, hmissing]
    rfl

theorem Is.existsUnique (h : r.Is k) : ∃! k, r.Is k :=
  ⟨k, h, fun _ h' => h'.eq_kind.trans h.eq_kind.symm⟩

theorem pointer_is {path : FilePath} (h : path.IsNormal) (attributes : Named String) :
    { pointer path with attributes := attributes }.Is .pointer :=
  ⟨⟨path, rfl, h⟩, rfl, rfl, rfl, rfl, rfl⟩

theorem missing_is (attributes : Named String) :
    { blank with missing := true, attributes := attributes }.Is .sentinel :=
  ⟨rfl, rfl, rfl, rfl, rfl, rfl⟩

/-- What is observed is either there or missing. -/
theorem observe_is (path : FilePath) (attributes : Named String) (w : World) :
    ∃ k, ((observe path attributes : InWorld Record).run w).1.Is k := by
  rw [observe, InWorld.run_bind, InWorld.run_status]
  dsimp only
  split
  · exact ⟨.sentinel, missing_is attributes⟩
  · split
    all_goals
      rw [InWorld.run_bind, InWorld.run_bind]
      exact ⟨.full, rfl, rfl, rfl⟩

end Record

namespace Ledger

/-! ## Edits -/

/-- A change to a ledger. -/
inductive Edit where
  /-- Record a path. -/
  | track (path : FilePath) (mark : Mark) (attributes : Named String)
  /-- Note an optional file that was not found. -/
  | miss (path origin : FilePath) (package : Option String) (file : Option FilePath)
  /-- Take up the entries of another ledger. -/
  | update (other : Ledger)
  /-- Let a directory stand for the paths that match some of the patterns. -/
  | collapse (patterns : List String) (directory : FilePath) (attributes : Named String)

namespace Edit

/-- The edit lets a directory stand for others. -/
def isCollapse : Edit → Bool
  | .collapse _ _ _ => true
  | _ => false

/-- The edit lets a directory stand for a path. -/
def Collapses (path : FilePath) : Edit → Prop
  | .collapse patterns _ _ => anyMatches path patterns = .ok true
  | _ => False

end Edit

/-- Make an edit. A collapse whose patterns cannot be read leaves the ledger as it is. -/
def edit {m : Type → Type} [Monad m] [Host m] (l : Ledger) : Edit → m Ledger
  | .track path mark attributes => l.track path mark attributes
  | .miss path origin package file => l.miss path origin package file
  | .update other => return l.update other
  | .collapse patterns directory attributes => do
    match ← l.collapse patterns directory attributes with
    | .ok collapsed => return collapsed
    | .error _ => return l

/-- The ledger after an edit in a world. -/
def edited (l : Ledger) (e : Edit) (w : World) : Ledger := ((l.edit e : InWorld Ledger).run w).1

/-- The ledger after edits in turn, each in its world. -/
def after (l : Ledger) (history : List (Edit × World)) : Ledger :=
  history.foldl (fun l step => l.edited step.1 step.2) l

/-- The ledger has come about by edits, and so have those that it has taken up. -/
inductive Built : Ledger → Prop
  | empty : Built empty
  | edited {l : Ledger} {e : Edit} (h : Built l) (hother : ∀ m, e = .update m → Built m)
      (w : World) : Built (l.edited e w)

variable {l m : Ledger}

/-- A path that is recorded gets a record of one kind, if it has none. -/
theorem track_run (l : Ledger) (path : FilePath) (mark : Mark) (attributes : Named String)
    (w : World) : ∃ r k, Record.Is r k ∧
      ((l.track path mark attributes : InWorld Ledger).run w).1 =
        l.addRecord (FilePath.normalize w.directory path) r := by
  rw [track, InWorld.run_bind, InWorld.run_normalize]
  dsimp only
  split
  next hhas =>
    rw [has_eq] at hhas
    refine ⟨{ Record.blank with missing := true, attributes := [] }, .sentinel,
      Record.missing_is [], ?_⟩
    rw [addRecord, note_of_covers hhas]
    rfl
  · cases mark with
    | observed =>
      obtain ⟨k, hk⟩ := Record.observe_is (FilePath.normalize w.directory path) attributes w
      dsimp only
      rw [InWorld.run_bind]
      exact ⟨_, k, hk, rfl⟩
    | pointer origin =>
      exact ⟨_, .pointer, Record.pointer_is (FilePath.isNormal_normalize w.directory origin)
        attributes, rfl⟩
    | missing => exact ⟨_, .sentinel, Record.missing_is attributes, rfl⟩

theorem miss_run (l : Ledger) (path origin : FilePath) (package : Option String)
    (file : Option FilePath) (w : World) :
    ∃ miss, l.edited (.miss path origin package file) w = l.addMissed miss := by
  cases package with
  | none => exact ⟨_, rfl⟩
  | some package => exact ⟨_, rfl⟩

/-- A collapse whose patterns cannot be read fails. Others change records in their places and record
the directory. -/
theorem collapse_run (l : Ledger) (patterns : List String) (directory : FilePath)
    (attributes : Named String) (w : World) :
    (∃ fault, ((l.collapse patterns directory attributes : InWorld _).run w).1 = .error fault) ∨
    ∃ pointed r k, pointTo patterns (FilePath.normalize w.directory directory) l.records =
        .ok pointed ∧ Record.Is r k ∧
      ((l.collapse patterns directory attributes : InWorld _).run w).1 =
        .ok { l with records := note pointed (FilePath.normalize w.directory directory) r } := by
  rw [collapse, InWorld.run_bind, InWorld.run_normalize]
  dsimp only
  split
  next fault _ => exact .inl ⟨fault, rfl⟩
  next pointed hpointed =>
    obtain ⟨r, k, hr, hrun⟩ := track_run { l with records := pointed }
      (FilePath.normalize w.directory directory) .observed attributes w
    rw [FilePath.normalize_normalize] at hrun
    refine .inr ⟨pointed, r, k, hpointed, hr, ?_⟩
    rw [InWorld.run_bind, hrun]
    rfl

/-- Pointing records to a directory leaves their paths. -/
theorem pointTo_paths {patterns : List String} {directory : FilePath}
    {records pointed : List (FilePath × Record)}
    (h : pointTo patterns directory records = .ok pointed) :
    pointed.map Prod.fst = records.map Prod.fst := by
  have hpaths : List.Forall₂ (fun e e' => e.1 = e'.1) records pointed := by
    refine (pointTo_ok h).imp fun e e' => ?_
    rintro ⟨hit, -, rfl⟩
    rfl
  rw [← List.forall₂_eq_eq_eq, List.forall₂_map_left_iff, List.forall₂_map_right_iff]
  exact hpaths.flip.imp fun _ _ => Eq.symm

/-! ## What every ledger satisfies -/

/-- No two entries are of the same path. -/
def Distinct {α : Type} (l : List (FilePath × α)) : Prop :=
  (l.map Prod.fst).Pairwise fun p q => p.same q = false

theorem Distinct.note {α : Type} {l : List (FilePath × α)} (h : Distinct l) (path : FilePath) (a : α) :
    Distinct (note l path a) := by
  cases hcovers : covers l path with
  | true => rwa [note_of_covers hcovers]
  | false =>
    rw [note_of_not_covers hcovers, Distinct, List.map_append, List.pairwise_append]
    refine ⟨h, List.pairwise_singleton _ _, fun p hp q hq => ?_⟩
    obtain ⟨e, he, rfl⟩ := List.mem_map.1 hp
    obtain rfl := List.mem_singleton.1 hq
    exact Bool.eq_false_iff.2 fun hsame =>
      Bool.eq_false_iff.1 hcovers (covers_iff.2 ⟨e, he, hsame⟩)

theorem Distinct.notes {α : Type} {l : List (FilePath × α)} (h : Distinct l)
    (es : List (FilePath × α)) : Distinct (notes l es) := by
  induction es generalizing l with
  | nil => exact h
  | cons e rest ih => exact ih (h.note e.1 e.2)

/-- The entries of a ledger are in order: its paths are absolute, in normal form and different, each
record is of one kind, and each missed file stands under its own path. -/
structure Sound (l : Ledger) : Prop where
  normal : ∀ e ∈ l.records, e.1.isAbsolute = true ∧ e.1.IsNormal
  distinct : Distinct l.records
  kind : ∀ e ∈ l.records, ∃! k, e.2.Is k
  own : ∀ e ∈ l.missed, e.2.path = e.1
  missedDistinct : Distinct l.missed

theorem sound_empty : Sound empty where
  normal := List.forall_mem_nil _
  distinct := .nil
  kind := List.forall_mem_nil _
  own := List.forall_mem_nil _
  missedDistinct := .nil

namespace Sound

theorem addRecord (h : l.Sound) {path : FilePath} (hpath : path.isAbsolute = true ∧ path.IsNormal)
    {r : Record} (hr : ∃! k, r.Is k) : (l.addRecord path r).Sound where
  normal e he := by
    have hnoted : e ∈ notes l.records [(path, r)] := he
    rcases mem_of_mem_notes hnoted with he | he
    · exact h.normal e he
    · rwa [List.mem_singleton.1 he]
  distinct := h.distinct.note path r
  kind e he := by
    have hnoted : e ∈ notes l.records [(path, r)] := he
    rcases mem_of_mem_notes hnoted with he | he
    · exact h.kind e he
    · rwa [List.mem_singleton.1 he]
  own := h.own
  missedDistinct := h.missedDistinct

theorem addMissed (h : l.Sound) (miss : Missed) : (l.addMissed miss).Sound where
  normal := h.normal
  distinct := h.distinct
  kind := h.kind
  own e he := by
    have hnoted : e ∈ notes l.missed [(miss.path, miss)] := he
    rcases mem_of_mem_notes hnoted with he | he
    · exact h.own e he
    · rw [List.mem_singleton.1 he]
  missedDistinct := h.missedDistinct.note miss.path miss

theorem update (h : l.Sound) (hm : m.Sound) : (l.update m).Sound where
  normal e he := (mem_of_mem_notes he).elim (h.normal e) (hm.normal e)
  distinct := h.distinct.notes m.records
  kind e he := (mem_of_mem_notes he).elim (h.kind e) (hm.kind e)
  own e he := (mem_of_mem_notes he).elim (h.own e) (hm.own e)
  missedDistinct := h.missedDistinct.notes m.missed

/-- Records are pointed to a directory where they are, and pointers are of one kind. -/
theorem pointTo (h : l.Sound) {patterns : List String} {directory : FilePath}
    (hdirectory : directory.IsNormal) {pointed : List (FilePath × Record)}
    (hpointed : pointTo patterns directory l.records = .ok pointed) :
    Sound { l with records := pointed } where
  normal e he := by
    obtain ⟨e', he', hit, -, rfl⟩ := exists_of_mem_forall₂ (pointTo_ok hpointed) he
    exact h.normal e' he'
  distinct := by
    rw [Distinct, pointTo_paths hpointed]
    exact h.distinct
  kind e he := by
    obtain ⟨e', he', hit, -, rfl⟩ := exists_of_mem_forall₂ (pointTo_ok hpointed) he
    dsimp only
    split
    · exact (Record.pointer_is hdirectory []).existsUnique
    · exact h.kind e' he'
  own := h.own
  missedDistinct := h.missedDistinct

/-- Every edit keeps a ledger in order, if it takes up nothing that is not. -/
theorem edited (h : l.Sound) {e : Edit} (hother : ∀ m, e = .update m → m.Sound) (w : World) :
    (l.edited e w).Sound := by
  have hnormal (p : FilePath) : (FilePath.normalize w.directory p).isAbsolute = true ∧
      (FilePath.normalize w.directory p).IsNormal :=
    ⟨FilePath.isAbsolute_ofNames _, FilePath.isNormal_normalize _ _⟩
  cases e with
  | track path mark attributes =>
    obtain ⟨r, k, hr, hrun⟩ := track_run l path mark attributes w
    rw [Ledger.edited, edit, hrun]
    exact h.addRecord (hnormal path) hr.existsUnique
  | miss path origin package file =>
    obtain ⟨miss, hrun⟩ := miss_run l path origin package file w
    rw [hrun]
    exact h.addMissed miss
  | update other => exact h.update (hother other rfl)
  | collapse patterns directory attributes =>
    rw [Ledger.edited, edit, InWorld.run_bind]
    rcases collapse_run l patterns directory attributes w with
      ⟨fault, hrun⟩ | ⟨pointed, r, k, hpointed, hr, hrun⟩
    · rw [hrun]
      exact h
    · rw [hrun]
      exact (h.pointTo (hnormal directory).2 hpointed).addRecord (hnormal directory) hr.existsUnique

end Sound

theorem Built.sound (h : Built l) : l.Sound := by
  induction h with
  | empty => exact sound_empty
  | edited _ _ w ih ihother => exact ih.edited ihother w

/-! ## What edits leave -/

theorem prefix_note {α : Type} (l : List (FilePath × α)) (path : FilePath) (a : α) :
    l <+: note l path a := by
  rw [note]
  split
  · exact List.prefix_rfl
  · exact List.prefix_append l _

theorem prefix_notes {α : Type} (l es : List (FilePath × α)) : l <+: notes l es :=
  notes_eq l es ▸ List.prefix_append l _

/-- What edits have left of a ledger. -/
structure Keeps (edits : List Edit) (l l' : Ledger) : Prop where
  /-- An entry stays in its place. Its record changes only if a collapse matches its path. -/
  records : ∀ (i : Nat) (path : FilePath) (r : Record), l.records[i]? = some (path, r) →
    ∃ r', l'.records[i]? = some (path, r') ∧ (r' = r ∨ ∃ e ∈ edits, e.Collapses path)
  /-- Missed files stay, and later ones are put behind them. -/
  missed : l.missed <+: l'.missed
  /-- Without a collapse all entries stay as they are, and later ones are put behind them. -/
  appended : (∀ e ∈ edits, e.isCollapse = false) → l.records <+: l'.records
  /-- A collapse does nothing to the missed files. -/
  collapsed : (∀ e ∈ edits, e.isCollapse = true) → l'.missed = l.missed

namespace Keeps

variable {e : Edit} {es es' : List Edit} {l₁ l₂ l₃ : Ledger}

theorem refl (es : List Edit) (l : Ledger) : Keeps es l l where
  records _ _ r h := ⟨r, h, .inl rfl⟩
  missed := List.prefix_rfl
  appended _ := List.prefix_rfl
  collapsed _ := rfl

theorem trans (h : Keeps es l₁ l₂) (h' : Keeps es' l₂ l₃) : Keeps (es ++ es') l₁ l₃ where
  records i path r hr := by
    obtain ⟨r₂, hr₂, hkept⟩ := h.records i path r hr
    obtain ⟨r₃, hr₃, hkept'⟩ := h'.records i path r₂ hr₂
    refine ⟨r₃, hr₃, ?_⟩
    rcases hkept with rfl | ⟨e, he, hcollapses⟩
    · refine hkept'.imp_right ?_
      rintro ⟨e, he, hcollapses⟩
      exact ⟨e, List.mem_append_right es he, hcollapses⟩
    · exact .inr ⟨e, List.mem_append_left es' he, hcollapses⟩
  missed := h.missed.trans h'.missed
  appended hnone := by
    obtain ⟨hes, hes'⟩ := List.forall_mem_append.1 hnone
    exact (h.appended hes).trans (h'.appended hes')
  collapsed hall := by
    obtain ⟨hes, hes'⟩ := List.forall_mem_append.1 hall
    exact (h'.collapsed hes').trans (h.collapsed hes)

/-- An edit that is no collapse puts entries behind those that are there. -/
theorem of_prefix (he : e.isCollapse = false) (hrecords : l₁.records <+: l₂.records)
    (hmissed : l₁.missed <+: l₂.missed) : Keeps [e] l₁ l₂ where
  records i path r hr := by
    refine ⟨r, ?_, .inl rfl⟩
    rw [List.prefix_iff_getElem?] at hrecords
    obtain ⟨hi, hget⟩ := List.getElem?_eq_some_iff.1 hr
    rw [hrecords i hi, hget]
  missed := hmissed
  appended _ := hrecords
  collapsed hall := by
    rw [hall e List.mem_cons_self] at he
    cases he

/-- A collapse changes the records whose paths it matches, where they are. -/
theorem of_pointTo {patterns : List String} {directory base : FilePath}
    {attributes : Named String} {pointed : List (FilePath × Record)}
    (h : pointTo patterns base l.records = .ok pointed) (r : Record) :
    Keeps [.collapse patterns directory attributes] l
      { l with records := note pointed base r } where
  records i path r hr := by
    obtain ⟨hi, hget⟩ := List.getElem?_eq_some_iff.1 hr
    have hi' : i < pointed.length := (pointTo_ok h).length_eq ▸ hi
    obtain ⟨hit, hhit, hpointed⟩ := (pointTo_ok h).get hi hi'
    simp only [List.get_eq_getElem, hget] at hhit hpointed
    refine ⟨pointed[i].2, ?_, ?_⟩
    · rw [List.prefix_iff_getElem?.1 (prefix_note pointed base _) i hi', hpointed]
    · rw [hpointed]
      cases hit with
      | true => exact .inr ⟨_, List.mem_singleton_self _, hhit⟩
      | false => exact .inl rfl
  missed := List.prefix_rfl
  appended hnone := absurd (hnone _ (List.mem_singleton_self _)) Bool.true_eq_false.mp
  collapsed _ := rfl

/-- What an edit leaves. -/
theorem edited (l : Ledger) (e : Edit) (w : World) : Keeps [e] l (l.edited e w) := by
  cases e with
  | track path mark attributes =>
    obtain ⟨r, k, -, hrun⟩ := track_run l path mark attributes w
    rw [Ledger.edited, edit, hrun]
    exact of_prefix rfl (prefix_note l.records _ r) List.prefix_rfl
  | miss path origin package file =>
    obtain ⟨miss, hrun⟩ := miss_run l path origin package file w
    rw [hrun]
    exact of_prefix rfl List.prefix_rfl (prefix_note l.missed miss.path miss)
  | update other =>
    exact of_prefix rfl (prefix_notes l.records other.records) (prefix_notes l.missed other.missed)
  | collapse patterns directory attributes =>
    rw [Ledger.edited, edit, InWorld.run_bind]
    rcases collapse_run l patterns directory attributes w with
      ⟨fault, hrun⟩ | ⟨pointed, r, k, hpointed, -, hrun⟩
    · rw [hrun]
      exact refl _ l
    · rw [hrun]
      exact of_pointTo hpointed r

/-- What a history leaves, by what its edits leave one after the other. -/
theorem after (l : Ledger) (history : List (Edit × World)) :
    Keeps (history.map Prod.fst) l (l.after history) := by
  induction history generalizing l with
  | nil => exact refl [] l
  | cons step rest ih => exact (edited l step.1 step.2).trans (ih (l.edited step.1 step.2))

end Keeps

/-- **Histories.** A ledger that has come about by edits in any worlds is in order. Later edits keep
its entries in their places: they put new ones behind, and change a record only if a collapse
matches its path. -/
theorem history_of_built_ledger (h : Built l) :
    l.Sound ∧ ∀ history, Keeps (history.map Prod.fst) l (l.after history) :=
  ⟨h.sound, Keeps.after l⟩

/-! A file is recorded and a missing one noted, then the directory takes the place of the file. -/

/-- A world with a file in a directory. -/
def smallWorld : World := .holding [(["d"], .directory ⟨0⟩), (["d", "a.yml"], .file "".toUTF8 ⟨0⟩)]

/-- A file, a path with nothing there, and an optional file that was not found. -/
def small : Ledger :=
  ((empty.edited (.track ⟨"/d/./a.yml"⟩ .observed []) smallWorld).edited
    (.track ⟨"b.yml"⟩ .missing []) smallWorld).edited
    (.miss ⟨"c.yml"⟩ ⟨"/d/a.yml"⟩ none none) smallWorld

theorem small_built : Built small := by
  refine .edited (.edited (.edited .empty ?_ smallWorld) ?_ smallWorld) ?_ smallWorld
  all_goals simp

/-- The directory takes the place of the file, and a ledger with the same entries is taken up. -/
def smallHistory : List (Edit × World) :=
  [(.collapse ["/d/*.yml"] ⟨"/d"⟩ [], smallWorld), (.update small, smallWorld)]

theorem small_history_is_kept : Built small ∧
    (small.Sound ∧ ∀ history, Keeps (history.map Prod.fst) small (small.after history)) ∧
    (small.records.map fun e => (e.1.text, e.2.kind)) =
      [("/d/a.yml", .full), ("/b.yml", .sentinel)] ∧
    ((small.after smallHistory).records.map fun e => (e.1.text, e.2.kind)) =
      [("/d/a.yml", .pointer), ("/b.yml", .sentinel), ("/d", .full)] ∧
    ((small.after smallHistory).missed.map fun e => e.1.text) = ["/c.yml"] := by
  refine ⟨small_built, history_of_built_ledger small_built, ?_⟩
  decide +kernel

end Ledger

end LayeredConfig
