import LayeredConfig.Proofs.Accounting
import LayeredConfig.Proofs.Alike
import LayeredConfig.Proofs.Cache.Save
import LayeredConfig.Proofs.Glob.Matching
import LayeredConfig.Proofs.Path.Respelling

/-!
# Which records a pattern collapses

The ledger of the files of a pattern points from the paths that the pattern matches to the directory
it starts from, and keeps every other record (`files_point_to_base`). The files of a pattern in
normal form are among those paths. So are files that one of them includes, if the pattern as a whole
matches their paths.
-/

namespace LayeredConfig

variable {w w' : World}

/-! ## The directory a pattern starts from -/

namespace FilePath

/-- Names put behind a path of names, one after the other. -/
theorem foldl_join_ofNames {before after : List String} (h : ∀ n ∈ before ++ after, Plain n) :
    after.foldl (fun base t => join base ⟨t⟩) (ofNames before) = ofNames (before ++ after) := by
  induction after generalizing before with
  | nil =>
    rw [List.append_nil]
    rfl
  | cons n rest ih =>
    obtain ⟨hbefore, hafter⟩ := List.forall_mem_append.1 h
    rw [List.append_cons] at h ⊢
    rw [List.foldl_cons, Glob.join_ofNames hbefore (hafter n List.mem_cons_self), ih h]

/-- A pattern in normal form starts from the names before the first wildcard. -/
theorem patternBase_ofNames {names : List String} (hplain : ∀ n ∈ names, Plain n)
    (hnames : names ≠ []) : ∃ lead more, names = lead ++ more ∧ more ≠ [] ∧
      (∀ n ∈ lead, hasWildcard n = false) ∧ patternBase (ofNames names) = ofNames lead := by
  have htexts : (ofNames names).parts.map Part.text = "/" :: names := by
    rw [parts_ofNames hplain, List.map_cons, List.map_map]
    exact congrArg _ (List.map_id names)
  generalize hlead : names.takeWhile (fun n => !hasWildcard n) = lead
  have hwild : ∀ n ∈ lead, hasWildcard n = false := fun n hn => by
    rw [← hlead] at hn
    simpa using List.mem_takeWhile_imp hn
  have hsplit : names = lead ++ names.dropWhile (fun n => !hasWildcard n) := by
    rw [← hlead, List.takeWhile_append_dropWhile]
  have htake : ("/" :: names).takeWhile (fun n => !hasWildcard n) = "/" :: lead := by
    rw [← hlead]
    rfl
  have hbase : ("/" :: lead).foldl (fun base t => join base ⟨t⟩) ⟨""⟩ = ofNames lead := by
    have hlead : ∀ n ∈ [] ++ lead, Plain n := fun n hn => hplain n <| by
      rw [hsplit]
      exact List.mem_append_left _ hn
    exact foldl_join_ofNames hlead
  rw [patternBase, htexts, htake, hbase, List.length_cons, List.length_cons]
  by_cases hmore : names.dropWhile (fun n => !hasWildcard n) = []
  · rw [hmore, List.append_nil] at hsplit
    subst hsplit
    obtain ⟨front, last, rfl⟩ := List.eq_nil_or_concat' names |>.resolve_left hnames
    refine ⟨front, [last], rfl, by simp, fun n hn => hwild n (List.mem_append_left _ hn), ?_⟩
    rw [if_neg (by omega), parent_ofNames hplain]
  · refine ⟨lead, _, hsplit, hmore, hwild, if_pos ?_⟩
    have hlength := List.length_pos_iff.2 hmore
    rw [hsplit, List.length_append]
    omega

end FilePath

/-! ## Ledgers of several files -/

/-- What is recorded are files with all that is known of them. -/
def Ledger.Full (w : World) (l : Ledger) : Prop :=
  ∀ e ∈ l.records, e.1.IsNormal ∧ e.2.IsFull w e.1

theorem SameFiles.ledger_full (h : SameFiles w w') {l : Ledger} (hl : l.Full w') : l.Full w :=
  fun e he => ⟨(hl e he).1, h.isFull (hl e he).2⟩

theorem Ledger.Full.update {l consulted : Ledger} (hl : l.Full w) (hconsulted : consulted.Full w) :
    (l.update consulted).Full w := fun e he =>
  (Ledger.mem_of_mem_notes he).elim (hl e) (hconsulted e)

namespace Settings

variable {s : Settings} {t : Tree} {l : Ledger}

theorem load_full (hcache : s.cache = none) {path : FilePath} {o : LoadOptions}
    (h : outcome (s.load path o) w = (.ok (t, l), w')) : SameFiles w w' ∧ l.Full w ∧
      Ledger.covers l.records (FilePath.normalize w.directory path) = true := by
  rw [← tellLoad_run, tellLoad] at h
  obtain ⟨file, w₁, hfile, h, -⟩ := Telling.quiet_bind_ok h
  cases hfile
  obtain ⟨bound, w₁, hbound, h, -⟩ := Telling.quiet_bind_ok h
  cases hbound
  obtain ⟨recorded, haccounted, rfl, hread⟩ :=
    accountsFor_file hcache _ _ (FilePath.isNormal_normalize w.directory path) h
  refine ⟨haccounted.same, fun e he => ?_, ?_⟩
  · exact haccounted.full e ((Ledger.mem_of_mem_notes he).resolve_left List.not_mem_nil)
  · obtain ⟨e, he, hpath⟩ : ∃ e ∈ recorded, e.1 = FilePath.normalize w.directory path :=
      List.mem_map.1 (hread ▸ List.mem_cons_self)
    change Ledger.covers (Ledger.notes [] recorded) _ = true
    rw [Ledger.covers_notes, Bool.or_eq_true]
    exact .inr (Ledger.covers_iff.2 ⟨e, he, hpath ▸ FilePath.same_refl _⟩)

/-- What is loaded as a section is loaded as a file. -/
theorem loadSection_ok {o : NestedOptions} {file : FilePath} {new : FileSection}
    (h : outcome (s.loadSection o file) w = (.ok (new, l), w')) :
    ∃ t, outcome (s.load file o.forFile) w = (.ok (t, l), w') := by
  obtain ⟨⟨t, ledger⟩, w₁, hload, h⟩ := outcome_bind_ok h
  refine ⟨t, ?_⟩
  dsimp only at h
  split at h
  · cases h
    exact hload
  · split at h
    · cases h
      exact hload
    · cases h

theorem assembleFrom_full (hcache : s.cache = none) {o : NestedOptions} {files : List FilePath}
    {sections sections' : List FileSection} {l' : Ledger}
    (h : outcome (s.assembleFrom o sections l files) w = (.ok (sections', l'), w'))
    (hl : l.Full w) : SameFiles w w' ∧ l'.Full w ∧
      (∀ p, Ledger.covers l.records p = true → Ledger.covers l'.records p = true) ∧
      ∀ file ∈ files, Ledger.covers l'.records (FilePath.normalize w.directory file) = true := by
  induction files generalizing sections l w with
  | nil =>
    cases h
    exact ⟨.refl _, hl, fun _ h => h, nofun⟩
  | cons file rest ih =>
    obtain ⟨⟨new, consulted⟩, w₁, hsection, h⟩ := outcome_bind_ok h
    obtain ⟨t, hload⟩ := loadSection_ok hsection
    obtain ⟨hsame, hfull, hcovers⟩ := load_full hcache hload
    obtain ⟨w₂, hwarned, h⟩ : ∃ w₂, SameFiles w₁ w₂ ∧
        outcome (s.assembleFrom o (putSection sections new) (l.update consulted) rest) w₂ =
          (.ok (sections', l'), w') := by
      dsimp only at h
      split at h
      · exact ⟨_, (SameFiles.unnoted w₁).warned (.refl w₁) _, h⟩
      · exact ⟨w₁, .refl w₁, h⟩
    have hto : SameFiles w w₂ := hsame.trans hwarned
    have hjoined : (l.update consulted).Full w₂ :=
      hto.symm.ledger_full (hl.update hfull)
    obtain ⟨hrest, hfull', hkept, hfiles⟩ := ih h hjoined
    have hupdated (p : FilePath) : Ledger.covers (l.update consulted).records p =
        (Ledger.covers l.records p || Ledger.covers consulted.records p) :=
      Ledger.covers_notes _ _ p
    refine ⟨hto.trans hrest, hto.ledger_full hfull', fun p hp => hkept p ?_,
      List.forall_mem_cons.2 ⟨hkept _ ?_, fun file hfile => ?_⟩⟩
    · rw [hupdated, hp, Bool.true_or]
    · rw [hupdated, hcovers, Bool.or_true]
    · rw [← hto.directory]
      exact hfiles file hfile

theorem loadNested_full (hcache : s.cache = none) {o : NestedOptions} {files : List FilePath}
    (h : outcome (s.loadNested files o) w = (.ok (t, l), w')) : SameFiles w w' ∧ l.Full w ∧
      ∀ file ∈ files, Ledger.covers l.records (FilePath.normalize w.directory file) = true := by
  rw [loadNested, outcome_bind_of_ok (mapM_normalize_run files w)] at h
  dsimp only at h
  have hnone : outcome (cached none (files.map (FilePath.normalize w.directory)) :
      ExceptT Error InWorld (Option (Tree × Ledger))) w = (.ok none, w) := rfl
  rw [storeFor?_eq_none (.inl hcache), outcome_bind_of_ok hnone] at h
  obtain ⟨⟨sections, ledger⟩, w₁, hassembled, h⟩ := outcome_bind_ok h
  cases h
  obtain ⟨hsame, hfull, -, hfiles⟩ := assembleFrom_full hcache hassembled nofun
  refine ⟨hsame, hfull, fun file hfile => ?_⟩
  have hcovers := hfiles _ (List.mem_map_of_mem hfile)
  rwa [FilePath.normalize_normalize] at hcovers

end Settings

/-! ## Pointing to a directory -/

/-- What is known of a directory in a world. -/
structure Record.IsFullDirectory (w : World) (path : FilePath) (r : Record) : Prop where
  observed : ∃ t, w.find? path = some (.directory t) ∧
    r.hash = none ∧ r.modified = t.epochSeconds ∧ r.date = some t.calendarText
  present : r.missing = false
  own : r.origin = none
  plain : r.attributes = []

theorem SameFiles.isFullDirectory (h : SameFiles w w') {path : FilePath} {r : Record}
    (hr : r.IsFullDirectory w' path) : r.IsFullDirectory w path := by
  obtain ⟨t, hdirectory, hknown⟩ := hr.observed
  exact ⟨⟨t, by rw [← h.find?_eq, hdirectory], hknown⟩, hr.present, hr.own, hr.plain⟩

/-- What is observed of a directory is all that is known of it. -/
theorem observe_isFullDirectory {path : FilePath} {r : Record}
    (hdirectory : w.hasDirectory path = true)
    (hrun : outcome (Record.observe path []) w = (.ok r, w')) : r.IsFullDirectory w path := by
  obtain ⟨t, hlocate⟩ := World.hasDirectory_iff.1 hdirectory
  have hfind : w.find? path = some (.directory t) := by rw [World.find?, hlocate]
  have hstatus : outcome (Host.status path : ExceptT Error InWorld (Option Status)) w =
      (.ok (some ⟨true, t, 4096⟩), w) := by
    change (Except.ok ((w.find? path).map Node.status), w) = _
    rw [hfind]
    rfl
  rw [Record.observe, outcome_bind_of_ok hstatus] at hrun
  dsimp only at hrun
  rw [if_pos rfl, outcome_bind_of_ok (outcome_pure none w)] at hrun
  obtain ⟨git, w₁, -, hrun⟩ := outcome_bind_ok hrun
  cases hrun
  exact ⟨⟨t, hfind, rfl, rfl, rfl⟩, rfl, rfl, rfl⟩

namespace Ledger

/-- What the records become that are pointed to a directory. -/
theorem pointTo_ok {patterns : List String} {directory : FilePath}
    {records pointed : List (FilePath × Record)}
    (h : pointTo patterns directory records = .ok pointed) :
    List.Forall₂ (fun e e' => ∃ hit, anyMatches e.1 patterns = .ok hit ∧
      e' = (e.1, if hit && !e.1.same directory then .pointer directory else e.2))
      records pointed := by
  induction records generalizing pointed with
  | nil =>
    cases h
    exact .nil
  | cons e rest ih =>
    obtain ⟨hit, hhit, h⟩ := except_bind_ok h
    obtain ⟨rest', hrest, h⟩ := except_bind_ok h
    cases h
    exact .cons ⟨hit, hhit, rfl⟩ (ih hrest)

/-- The value under a path, if all under it have the same. -/
theorem lookup_eq_some {α : Type} {entries : List (FilePath × α)} {path : FilePath} {a : α}
    (hcovers : covers entries path = true)
    (hall : ∀ e ∈ entries, e.1.same path = true → e.2 = a) : lookup entries path = some a := by
  cases hfind : entries.find? fun e => e.1.same path with
  | none =>
    obtain ⟨e, he, hsame⟩ := covers_iff.1 hcovers
    exact absurd hsame (List.find?_eq_none.1 hfind e he)
  | some e =>
    have hsame := List.find?_some hfind
    rw [lookup, hfind, Option.map_some, hall e (List.mem_of_find?_eq_some hfind) hsame]

end Ledger

namespace Ledger

theorem has_eq (l : Ledger) (path : FilePath) : l.has path = covers l.records path := by
  rw [has, record?, lookup, Option.isSome_map, List.isSome_find?]
  rfl

/-- A ledger is collapsed by pointing its records to the directory, which is recorded itself. -/
theorem collapse_ok {l l' : Ledger} {patterns : List String} {directory : FilePath}
    (h : outcome (l.collapse patterns directory []) w = (.ok (.ok l'), w')) :
    ∃ pointed, pointTo patterns (FilePath.normalize w.directory directory) l.records =
        .ok pointed ∧
      (l'.records = pointed ∧ covers pointed (FilePath.normalize w.directory directory) = true ∨
        ∃ r w₁, outcome (Record.observe (FilePath.normalize w.directory directory) []) w =
            (.ok r, w₁) ∧
          l'.records = pointed ++ [(FilePath.normalize w.directory directory, r)]) := by
  have hnormalize (p : FilePath) : outcome (Host.normalize p : ExceptT Error InWorld _) w =
      (.ok (FilePath.normalize w.directory p), w) := rfl
  rw [collapse, outcome_bind_of_ok (hnormalize directory)] at h
  split at h
  · cases h
  next pointed hpointed =>
    refine ⟨pointed, hpointed, ?_⟩
    obtain ⟨tracked, w₁, htracked, h⟩ := outcome_bind_ok h
    cases h
    rw [track, outcome_bind_of_ok (hnormalize _), FilePath.normalize_normalize] at htracked
    dsimp only at htracked
    rw [has_eq] at htracked
    split at htracked
    next hcovers =>
      cases htracked
      exact .inl ⟨rfl, hcovers⟩
    next hcovers =>
      obtain ⟨r, w₂, hobserve, htracked⟩ := outcome_bind_ok htracked
      cases htracked
      exact .inr ⟨r, _, hobserve, note_of_not_covers (Bool.eq_false_iff.2 hcovers) r⟩

/-- The ledger points the paths that some of the patterns match to a directory, and has all that is
known of the other files and of the directory itself. -/
structure PointsTo (w : World) (patterns : List String) (directory : FilePath) (l : Ledger) :
    Prop where
  pointed : ∀ e ∈ l.records, e.1 ≠ directory →
    (e.2 = .pointer directory ↔ anyMatches e.1 patterns = .ok true)
  full : ∀ e ∈ l.records, e.1 ≠ directory → e.2 ≠ .pointer directory → e.2.IsFull w e.1
  own : w.hasDirectory directory = true →
    ∃ r, l.record? directory = some r ∧ r.IsFullDirectory w directory

theorem PointsTo.of_sameFiles (hw : SameFiles w w') {patterns : List String} {directory : FilePath}
    {l : Ledger} (h : l.PointsTo w' patterns directory) : l.PointsTo w patterns directory where
  pointed := h.pointed
  full e he hne hkept := hw.isFull (h.full e he hne hkept)
  own hdirectory := by
    rw [← hw.hasDirectory_eq] at hdirectory
    obtain ⟨r, hr, hfull⟩ := h.own hdirectory
    exact ⟨r, hr, hw.isFullDirectory hfull⟩

section Collapse

variable {patterns : List String} {directory : FilePath} {l l' : Ledger}
  {records pointed : List (FilePath × Record)}

/-- What becomes of the records of files. -/
theorem pointed_of_full (hl : ∀ e ∈ records, e.1.IsNormal ∧ e.2.IsFull w e.1)
    (hdirectory : directory.IsNormal) (h : pointTo patterns directory records = .ok pointed) :
    ∀ e ∈ pointed, (e.1.IsNormal ∧ ∃ content t, w.find? e.1 = some (.file content t)) ∧
      (e.1 ≠ directory → (e.2 = .pointer directory ↔ anyMatches e.1 patterns = .ok true) ∧
        (e.2 ≠ .pointer directory → e.2.IsFull w e.1)) := by
  intro e he
  obtain ⟨⟨path, r⟩, hr, hit, hhit, rfl⟩ := exists_of_mem_forall₂ (pointTo_ok h) he
  obtain ⟨hnormal, hfull⟩ := hl _ hr
  obtain ⟨content, t, hfind, -⟩ := hfull.observed
  refine ⟨⟨hnormal, content, t, hfind⟩, fun hne => ?_⟩
  have hother : path.same directory = false :=
    Bool.eq_false_iff.2 fun hsame => hne ((hnormal.same_iff hdirectory).1 hsame)
  rw [hother, hhit]
  cases hit with
  | true => exact ⟨iff_of_true rfl rfl, fun hkept => absurd rfl hkept⟩
  | false =>
    have hkept : r ≠ .pointer directory := by
      rintro rfl
      cases hfull.own
    exact ⟨iff_of_false hkept nofun, fun _ => hfull⟩

variable (h : outcome (l.collapse patterns directory []) w = (.ok (.ok l'), w'))
include h

/-- A collapsed ledger has what became of the records, and maybe one of the directory. -/
theorem mem_of_collapse {base : FilePath}
    (hbase : FilePath.normalize w.directory directory = base) :
    ∃ pointed, pointTo patterns base l.records = .ok pointed ∧
      (∀ e ∈ pointed, e ∈ l'.records) ∧ ∀ e ∈ l'.records, e ∈ pointed ∨ e.1 = base := by
  obtain ⟨pointed, hpointed, hrecords⟩ := collapse_ok h
  rw [hbase] at hpointed hrecords
  refine ⟨pointed, hpointed, ?_⟩
  rcases hrecords with ⟨rfl, -⟩ | ⟨r, w₁, -, hrecords⟩
  · exact ⟨fun _ => id, fun _ => .inl⟩
  · rw [hrecords]
    refine ⟨fun e he => List.mem_append_left _ he, fun e he => ?_⟩
    rw [List.mem_append, List.mem_singleton] at he
    exact he.imp_right fun heq => congrArg Prod.fst heq

section Full

variable (hl : l.Full w) {base : FilePath}
  (hbase : FilePath.normalize w.directory directory = base)
include hl hbase

/-- The directory is recorded with all that is known of it: no file has its path. -/
theorem own_of_collapse (hthere : w.hasDirectory base = true) :
    ∃ r, l'.record? base = some r ∧ r.IsFullDirectory w base := by
  obtain ⟨pointed, hpointed, hrecords⟩ := collapse_ok h
  have hnormal : base.IsNormal := hbase ▸ FilePath.isNormal_normalize w.directory directory
  rw [hbase] at hpointed hrecords
  have hnew : ∀ e ∈ pointed, e.1.same base = false := by
    intro e he
    obtain ⟨⟨hpath, content, t, hfind⟩, -⟩ := pointed_of_full hl hnormal hpointed e he
    rw [Bool.eq_false_iff]
    intro hsame
    rw [(hpath.same_iff hnormal).1 hsame] at hfind
    rw [World.hasDirectory, hfind] at hthere
    cases hthere
  rcases hrecords with ⟨-, hcovers⟩ | ⟨r, w₁, hobserve, hrecords⟩
  · obtain ⟨e, he, hsame⟩ := covers_iff.1 hcovers
    cases (hnew e he).symm.trans hsame
  · refine ⟨r, ?_, observe_isFullDirectory hthere hobserve⟩
    rw [record?, hrecords]
    refine lookup_eq_some ?_ fun e he hsame => ?_
    · exact covers_iff.2 ⟨(base, r), by simp, FilePath.same_refl base⟩
    · rw [List.mem_append, List.mem_singleton] at he
      rcases he with he | rfl
      · cases (hnew e he).symm.trans hsame
      · rfl

/-- A ledger of files is collapsed to one that points to the directory. -/
theorem pointsTo_of_collapse : l'.PointsTo w patterns base := by
  obtain ⟨pointed, hpointed, -, hmem⟩ := mem_of_collapse h hbase
  have hnormal : base.IsNormal := hbase ▸ FilePath.isNormal_normalize w.directory directory
  have hentry : ∀ e ∈ l'.records, e.1 ≠ base → _ := fun e he hne =>
    (pointed_of_full hl hnormal hpointed e ((hmem e he).resolve_right hne)).2 hne
  exact {
    pointed := fun e he hne => (hentry e he hne).1
    full := fun e he hne => (hentry e he hne).2
    own := own_of_collapse h hl hbase }

/-- A recorded path that is matched is pointed to the directory. -/
theorem record?_of_collapse {path : FilePath} (hpath : path.IsNormal) (hother : path ≠ base)
    (hcovers : covers l.records path = true) (hmatch : anyMatches path patterns = .ok true) :
    l'.record? path = some (.pointer base) := by
  obtain ⟨pointed, hpointed, hkept, hmem⟩ := mem_of_collapse h hbase
  have hnormal : base.IsNormal := hbase ▸ FilePath.isNormal_normalize w.directory directory
  have hcovers' : covers l'.records path = true := by
    obtain ⟨e, he, hsame⟩ := covers_iff.1 hcovers
    obtain ⟨e', he', hit, -, rfl⟩ := exists_of_mem_forall₂ (pointTo_ok hpointed).flip he
    exact covers_iff.2 ⟨_, hkept _ he', hsame⟩
  refine lookup_eq_some hcovers' fun e he hsame => ?_
  have heq : e.1 = path := by
    rcases hmem e he with hpointed' | hown
    · obtain ⟨⟨he, -⟩, -⟩ := pointed_of_full hl hnormal hpointed e hpointed'
      exact (he.same_iff hpath).1 hsame
    · exact ((hown ▸ hnormal).same_iff hpath).1 hsame
  have hne : e.1 ≠ base := heq ▸ hother
  exact ((pointsTo_of_collapse h hl hbase).pointed e he hne).2 (heq ▸ hmatch)

end Full

end Collapse

end Ledger

/-! ## The files of a pattern -/

/-- A pattern as seen from the working directory. -/
def World.pattern (w : World) (pattern : String) : FilePath :=
  FilePath.absolute (FilePath.normalize w.directory ⟨"."⟩) ⟨pattern⟩

/-- The directory that stands for the files of a pattern. -/
def World.patternBase (w : World) (pattern : String) : FilePath :=
  FilePath.normalize w.directory (FilePath.patternBase (w.pattern pattern))

namespace Glob

/-- The root alone leads to itself. -/
theorem eq_root_of_expands (hw : w.Sound) (hpath : Expands w (FilePath.ofNames []).text path) :
    path = FilePath.ofNames [] := by
  have hroot : parseComponents (FilePath.ofNames []).text = .ok [[]] := by decide +kernel
  obtain ⟨cs, hcs, hreaches⟩ := reaches_of_expands hpath
  cases hroot.symm.trans hcs
  have hempty : Pattern.literal? [] = some [] := rfl
  cases hreaches with
  | literal hname h =>
    cases hempty.symm.trans hname
    cases h
    rfl
  | named hname hmatch h =>
    have hspells := (spells_literal hempty _).1 (Pattern.spells_of_compare (beq_iff_eq.1 hmatch))
    exact absurd hspells (hw.plain_of_mem_names hname).nonempty
  | special hliteral => cases hempty.symm.trans hliteral
  | skip hrecursive => cases hrecursive
  | last hrecursive => cases hrecursive
  | deeper hrecursive => cases hrecursive

/-- A file found by a pattern in normal form is matched by the pattern as a whole, and lies below
the directory the pattern starts from. -/
theorem file_below_base (hw : w.Sound) {pattern : String} (hpattern : (w.pattern pattern).IsNormal)
    (honly : NamesOnly (w.pattern pattern).text) {path : FilePath} (hfile : w.hasFile path = true)
    (hpath : Expands w (w.pattern pattern).text path) :
    path.IsNormal ∧ Ledger.anyMatches path [(w.pattern pattern).text] = .ok true ∧
      w.hasDirectory (w.patternBase pattern) = true := by
  unfold World.patternBase
  obtain ⟨names, hplain, hnames⟩ := hpattern
  rw [hnames] at honly hpath ⊢
  have hnonempty : names ≠ [] := by
    rintro rfl
    rw [eq_root_of_expands hw hpath] at hfile
    obtain ⟨place, content, t, hlocate⟩ := World.hasFile_iff.1 hfile
    obtain ⟨-, -, hnode⟩ := World.reached_of_locate hlocate
    rw [World.placeOf_of_locate hlocate, World.placeOf_ofNames hplain] at hnode
    cases hnode
  obtain ⟨cs, hcs, -⟩ := reaches_of_expands hpath
  obtain ⟨p, hp, -⟩ := except_bind_ok hcs
  obtain ⟨hmatch, hnormal⟩ := isMatch_of_expands hplain hw honly hnonempty hpath hp
  obtain ⟨lead, more, rfl, hmore, hlead, hbase⟩ := FilePath.patternBase_ofNames hplain hnonempty
  have hleadPlain := (List.forall_mem_append.1 hplain).1
  obtain ⟨found, hfound, hfoundPlain, rfl⟩ := below_lead hw hmore hplain hlead honly hpath
  rw [hbase, FilePath.IsNormal.normalize_eq ⟨lead, hleadPlain, rfl⟩]
  refine ⟨hnormal, ?_, World.hasDirectory_above
    (List.forall_mem_append.2 ⟨hleadPlain, hfoundPlain⟩) hfound hfile⟩
  rw [Ledger.anyMatches, hp]
  dsimp only
  rw [if_pos hmatch]

end Glob

namespace Settings

variable {s : Settings} {t : Tree} {l : Ledger}

/-- After a load of the files of a pattern in normal form, the ledger points the paths that the
pattern as a whole matches to the directory it starts from, the files that were found among them. It
has all that is known of this directory if there are such files, and of every other file that was
read. -/
theorem files_point_to_base (hcache : s.cache = none) (hw : w.Sound) {pattern : String}
    (hpattern : (w.pattern pattern).IsNormal)
    (honly : Glob.NamesOnly (w.pattern pattern).text) {o : NestedOptions}
    (h : outcome (s.loadNestedPattern pattern o) w = (.ok (t, l), w')) :
    ∃ files, outcome (Glob.files (w.pattern pattern).text : ExceptT Error InWorld _) w =
        (.ok (.ok files), w) ∧
      (∀ file ∈ files, l.record? file = some (.pointer (w.patternBase pattern))) ∧
      (files ≠ [] → w.hasDirectory (w.patternBase pattern) = true) ∧
      l.PointsTo w [(w.pattern pattern).text] (w.patternBase pattern) := by
  obtain ⟨found, hrun, hfound⟩ := Glob.asks_files (w := w) (w.pattern pattern).text
  have hhere : outcome (Host.normalize ⟨"."⟩ : ExceptT Error InWorld FilePath) w =
      (.ok (FilePath.normalize w.directory ⟨"."⟩), w) := rfl
  rw [loadNestedPattern, outcome_bind_of_ok hhere] at h
  change outcome (Glob.files (w.pattern pattern).text >>= _) w = _ at h
  rw [outcome_bind_of_ok hrun] at h
  cases found with
  | error fault => cases h
  | ok files =>
    obtain ⟨⟨t', ledger⟩, w₁, hloaded, h⟩ := outcome_bind_ok h
    obtain ⟨collapsed, w₂, hcollapsed, h⟩ := outcome_bind_ok h
    cases collapsed with
    | error fault => cases h
    | ok collapsed =>
      cases h
      obtain ⟨hsame, hfull, hcovers⟩ := loadNested_full hcache hloaded
      have hfull' : ledger.Full w₁ := hsame.symm.ledger_full hfull
      have hbase : FilePath.normalize w₁.directory (FilePath.patternBase (w.pattern pattern)) =
          w.patternBase pattern := by
        rw [hsame.directory]
        rfl
      have hbelow : ∀ file ∈ files, _ := fun file hfile => Glob.file_below_base hw hpattern honly
        (hfound files rfl file hfile).1 (hfound files rfl file hfile).2
      refine ⟨files, hrun, fun file hfile => ?_, fun hfiles => ?_,
        (Ledger.pointsTo_of_collapse hcollapsed hfull' hbase).of_sameFiles hsame⟩
      · obtain ⟨hnormal, hmatch, hdirectory⟩ := hbelow file hfile
        have hcovered := hcovers file hfile
        rw [hnormal.normalize_eq] at hcovered
        refine Ledger.record?_of_collapse hcollapsed hfull' hbase hnormal ?_ hcovered hmatch
        rintro rfl
        cases hdirectory.symm.trans (World.hasDirectory_of_hasFile (hfound files rfl _ hfile).1)
      · obtain ⟨file, rest, rfl⟩ := List.exists_cons_of_ne_nil hfiles
        exact (hbelow file List.mem_cons_self).2.2

/-- A world with a directory in which one file includes another from outside. -/
def cabs : World :=
  .holding [
    (["cabs"], .directory ⟨4⟩),
    (["cabs", "a.yml"], .file "_include: ../defs.yml\na: 1\n".toUTF8 ⟨5⟩),
    (["cabs", "b.txt"], .file "b\n".toUTF8 ⟨6⟩),
    (["defs.yml"], .file "d: 1\n".toUTF8 ⟨7⟩)]

theorem cabs_point_to_base :
    ∃ t l w', outcome (Settings.default.loadNestedPattern "cabs/*.yml" NestedOptions.default) cabs =
        (.ok (t, l), w') ∧
      l.record? ⟨"/cabs/a.yml"⟩ = some (.pointer ⟨"/cabs"⟩) ∧
      (∃ r, l.record? ⟨"/cabs"⟩ = some r ∧ r.IsFullDirectory cabs ⟨"/cabs"⟩) ∧
      l.PointsTo cabs ["/cabs/*.yml"] ⟨"/cabs"⟩ := by
  have hruns : succeeds (Settings.default.loadNestedPattern "cabs/*.yml" NestedOptions.default) cabs
      (fun _ _ => true) ∧
      succeeds (Glob.files "/cabs/*.yml" : ExceptT Error InWorld _) cabs
        (fun found _ => found == .ok [⟨"/cabs/a.yml"⟩]) := by
    decide +kernel
  have hpattern : cabs.pattern "cabs/*.yml" = FilePath.ofNames ["cabs", "*.yml"] ∧
      cabs.patternBase "cabs/*.yml" = ⟨"/cabs"⟩ := by
    decide +kernel
  obtain ⟨⟨t, l⟩, w', hload, -⟩ := succeeds_iff.1 hruns.1
  obtain ⟨found, w₁, hrun, hfound⟩ := succeeds_iff.1 hruns.2
  obtain ⟨files, hrun', hpointed, hdirectory, hpoints⟩ :=
    files_point_to_base (s := Settings.default) rfl (by decide +kernel)
      ⟨["cabs", "*.yml"], by decide +kernel, hpattern.1⟩ (by decide +kernel) hload
  rw [hpattern.2] at hpointed hdirectory hpoints
  rw [hpattern.1] at hrun' hpoints
  cases hrun.symm.trans hrun'
  cases eq_of_beq hfound
  have hthere := hdirectory (List.cons_ne_nil _ _)
  exact ⟨t, l, w', hload, hpointed _ List.mem_cons_self, hpoints.own hthere, hpoints⟩

end Settings

end LayeredConfig
