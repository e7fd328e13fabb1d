import LayeredConfig.Proofs.Cache.History
import LayeredConfig.Proofs.Command.Console
import LayeredConfig.Proofs.Path.Respelling

/-!
# Cleaning a cache

A cleaning takes the entries from a list of the directory and removes each under a path made from
its key. In a directory of files, whose path leaves room for the names of entries, the two agree on
which files are entries (`Tidy.selects`, `Tidy.removeEntries_run`): those that are old enough are
announced, and if the cleaning goes on they are taken away and nothing else is
(`cleaning_removes_what_it_announces`).
-/

namespace LayeredConfig.Store

variable {s : Store} {w w' : World} {key : String} {content : ByteArray} {t : Instant}
  {old : Instant → Prop} {e : EntryInfo}

/-! ## Directories of files -/

/-- The directory of a cache has files only, and the paths of its entries are not too long. -/
structure Tidy (s : Store) (w : World) : Prop where
  sound : w.Sound
  root : w.hasDirectory s.root = true
  files : ∀ name ∈ w.names (w.placeOf s.root),
    ∃ content t, w.node? (w.placeOf s.root ++ [name]) = some (.file content t)
  room : ∀ key, IsKey key → key ++ ".yml" ∈ w.names (w.placeOf s.root) →
    (s.entryPath key).text.utf8ByteSize < 4096

theorem IsKey.utf8ByteSize_name (h : IsKey key) : (key ++ ".yml").utf8ByteSize = 68 := by
  rw [String.utf8ByteSize_append, h.1]
  rfl

theorem IsKey.zero_notMem (h : IsKey key) : '\x00' ∉ (key ++ ".yml").toList := by
  rw [String.toList_append, List.mem_append, not_or]
  exact ⟨fun hzero => absurd (List.all_eq_true.1 h.2 _ hzero) (by decide), by decide⟩

/-- The path of an entry is that of the directory with at most a slash and a name. -/
theorem utf8ByteSize_entryPath (s : Store) (hkey : IsKey key) :
    s.root.text.utf8ByteSize + 68 ≤ (s.entryPath key).text.utf8ByteSize ∧
      (s.entryPath key).text.utf8ByteSize ≤ s.root.text.utf8ByteSize + 69 := by
  have hgap : s.root.gap.utf8ByteSize ≤ 1 := by
    rw [FilePath.gap]
    split
    · decide
    · decide
  rw [entryPath, FilePath.join_of_relative hkey.plain.isAbsolute, String.utf8ByteSize_append,
    String.utf8ByteSize_append, hkey.utf8ByteSize_name]
  omega

namespace Tidy

theorem nonempty (h : s.Tidy w) : s.root.text ≠ "" := by
  obtain ⟨t, hlocate⟩ := locate_root h.root
  exact (World.walk_of_locate hlocate).1

/-- The path of an entry leads to its file. -/
theorem locate_entryPath (h : s.Tidy w) (hkey : IsKey key)
    (hnode : w.node? (s.entryPlace w key) = some (.file content t)) :
    w.locate (s.entryPath key) = .ok (s.entryPlace w key, some (.file content t)) := by
  obtain ⟨u, hlocate⟩ := locate_root h.root
  have hname : key ++ ".yml" ∈ w.names (w.placeOf s.root) :=
    World.mem_names_iff.2 (by rw [← entryPlace, hnode]; rfl)
  have hzero : '\x00' ∉ (s.entryPath key).text.toList := by
    rw [entryPath, FilePath.join_of_relative hkey.plain.isAbsolute]
    simp only [String.toList_append, List.mem_append, not_or]
    refine ⟨⟨(World.fits_of_locate hlocate).1, ?_⟩, ?_⟩
    · rw [FilePath.gap]
      split
      · decide
      · decide
    · have := hkey.zero_notMem
      rwa [String.toList_append, List.mem_append, not_or] at this
  have hlocate' := World.locate_join hlocate hkey.plain
  rw [← entryPath, if_neg (by simpa using hzero), if_neg (Nat.not_le.2 (h.room key hkey hname)),
    hkey.utf8ByteSize_name, if_neg (by decide), ← entryPlace, hnode] at hlocate'
  exact hlocate'

theorem find?_entryPath (h : s.Tidy w) (hkey : IsKey key)
    (hnode : w.node? (s.entryPlace w key) = some (.file content t)) :
    w.find? (s.entryPath key) = some (.file content t) := by
  rw [World.find?, h.locate_entryPath hkey hnode]

theorem reachable (h : s.Tidy w) : s.Reachable w := by
  refine Reachable.of_keys h.sound fun key hkey hname => ?_
  obtain ⟨content, t, hnode⟩ := h.files _ hname
  rw [h.find?_entryPath hkey hnode]
  rfl

/-! ## Listing -/

/-- What is listed is in the file of an entry. -/
theorem of_mem_listed (h : s.Tidy w) (he : e ∈ s.listed w) :
    IsKey e.key ∧ ∃ content, w.node? (s.entryPlace w e.key) = some (.file content e.modified) := by
  obtain ⟨name, hname, hinfo⟩ := (mem_listed_iff h.root).1 he
  obtain ⟨hkey, rfl⟩ := name_of_inspected h.sound h.nonempty hname hinfo
  obtain ⟨content, t, hnode⟩ := h.files _ hname
  refine ⟨hkey, content, ?_⟩
  rw [World.inspected] at hinfo
  have hfile : w.find? (s.root.join ⟨e.key ++ ".yml"⟩) = some (.file content t) :=
    h.find?_entryPath hkey hnode
  rw [hfile] at hinfo
  split at hinfo
  next key node _ hnode' =>
    cases hnode'
    have hmodified : t = e.modified := congrArg EntryInfo.modified (Option.some.inj hinfo)
    rw [← hmodified]
    exact hnode
  · cases hinfo

/-- The file of each entry is listed. -/
theorem exists_mem_listed (h : s.Tidy w) (hkey : IsKey key)
    (hnode : w.node? (s.entryPlace w key) = some (.file content t)) :
    ∃ e ∈ s.listed w, e.key = key ∧ e.modified = t := by
  have hname : key ++ ".yml" ∈ w.names (w.placeOf s.root) :=
    World.mem_names_iff.2 (by rw [← entryPlace, hnode]; rfl)
  have hread : keyOf? (s.entryPath key) = some key :=
    (keyOf?_join_iff h.nonempty hkey.plain).2 ⟨hkey, rfl⟩
  have hinfo : ∃ inputs, w.inspected (s.entryPath key) =
      some ⟨key, inputs, content.size, t, s.entryPath key⟩ := by
    rw [World.inspected, hread, h.find?_entryPath hkey hnode]
    exact ⟨_, rfl⟩
  obtain ⟨inputs, hinfo⟩ := hinfo
  exact ⟨_, (mem_listed_iff h.root).2 ⟨_, hname, hinfo⟩, rfl, rfl⟩

/-! ## Removing -/

theorem remove_entry (h : s.Tidy w) (hkey : IsKey key)
    (hnode : w.node? (s.entryPlace w key) = some (.file content t)) :
    outcome (s.remove key) w = (.ok true, w.erase (s.entryPlace w key)) := by
  rw [remove_run, removed, h.find?_entryPath hkey hnode, World.removeFile,
    h.locate_entryPath hkey hnode]
  rfl

theorem node?_erase_entry (w : World) (key : String) (place : Place) :
    (w.erase (s.entryPlace w key)).node? place =
      if place = s.entryPlace w key then none else w.node? place :=
  World.node?_erase (by simp [entryPlace]) place

/-- The directory without the file of an entry has files only. -/
theorem erase (h : s.Tidy w) (hnode : w.node? (s.entryPlace w key) = some (.file content t)) :
    s.Tidy (w.erase (s.entryPlace w key)) := by
  have hfile : SameOutside.NoDirectory w (w.placeOf s.root) (key ++ ".yml") := fun u hu => by
    rw [← entryPlace, hnode] at hu
    cases hu
  have hnames : ∀ name ∈ (w.erase (s.entryPlace w key)).names (w.placeOf s.root),
      name ∈ w.names (w.placeOf s.root) ∧
        (w.erase (s.entryPlace w key)).node? (w.placeOf s.root ++ [name]) =
          w.node? (w.placeOf s.root ++ [name]) := by
    intro name hname
    rw [World.mem_names_iff, node?_erase_entry] at hname
    rw [World.mem_names_iff, node?_erase_entry]
    split at hname
    · cases hname
    next hne => exact ⟨hname, if_neg hne⟩
  exact {
    sound := h.sound.erase _
    root := (SameOutside.erase hfile).hasDirectory_eq s.root ▸ h.root
    files := fun name hname => by
      obtain ⟨hmem, hsame⟩ := hnames name hname
      exact hsame ▸ h.files name hmem
    room := fun key' hkey' hname => h.room key' hkey' (hnames _ hname).1 }

end Tidy

/-- What is at some places is gone, and nothing else has changed. -/
structure Gone (places : List Place) (w w' : World) : Prop where
  node?_eq : ∀ place, w'.node? place = if place ∈ places then none else w.node? place
  rest : w' = { w with nodes := w'.nodes }

/-- The entries of some keys are removed one after the other, each by a path of its own. -/
theorem Tidy.removeEntries_run {es : List EntryInfo} (h : s.Tidy w)
    (hkeys : (es.map (·.key)).Nodup)
    (hes : ∀ e ∈ es, IsKey e.key ∧
      ∃ content t, w.node? (s.entryPlace w e.key) = some (.file content t))
    (console : Console) :
    ∃ w', played (Command.removeEntries s es) console w = (.ok es.length, console, w') ∧
      s.Tidy w' ∧ Gone (es.map fun e => s.entryPlace w e.key) w w' := by
  induction es generalizing w with
  | nil => exact ⟨w, rfl, h, fun place => by simp, rfl⟩
  | cons e rest ih =>
    obtain ⟨⟨hkey, content, t, hnode⟩, hrest⟩ := List.forall_mem_cons.1 hes
    obtain ⟨hfresh, hnodup⟩ := List.nodup_cons.1 hkeys
    -- The files of the other entries are still there.
    have hother : ∀ e' ∈ rest, IsKey e'.key ∧ ∃ content t,
        (w.erase (s.entryPlace w e.key)).node? (s.entryPlace w e'.key) =
          some (.file content t) := by
      intro e' he'
      obtain ⟨hkey', content', t', hnode'⟩ := hrest e' he'
      refine ⟨hkey', content', t', ?_⟩
      rw [Tidy.node?_erase_entry, if_neg, hnode']
      intro hplace
      exact hfresh (List.mem_map.2 ⟨e', he', entryPlace_inj hplace⟩)
    obtain ⟨w', hrun, htidy, hgone⟩ := ih (h.erase hnode) hnodup hother
    refine ⟨w', ?_, htidy, fun place => ?_, hgone.rest⟩
    · have hremove : played (s.remove e.key).run console w =
          (.ok (.ok true), console, w.erase (s.entryPlace w e.key)) := by
        rw [← raised_remove (m := StateT Console InWorld), ← raised_remove (m := InWorld),
          played_run, h.remove_entry hkey hnode]
      rw [Command.removeEntries, played_bind_of_ok hremove]
      exact played_bind_of_ok hrun _
    · rw [hgone.node?_eq, Tidy.node?_erase_entry, List.map_cons]
      change (if place ∈ rest.map (fun e => s.entryPlace w e.key) then _ else _) = _
      simp only [List.mem_cons]
      split
      next hmem => rw [if_pos (.inr hmem)]
      next hmem => simp [hmem]

/-! ## What is selected -/

/-- The time is at least a span ago, if there is one. -/
def IsOld (now : Instant) : Option Span → Instant → Prop
  | none, _ => True
  | some age, t => t.nanoseconds + age.nanoseconds ≤ now.nanoseconds

/-- The entries are those whose files have an old time, in the order of their keys. -/
structure Selects (s : Store) (w : World) (old : Instant → Prop) (es : List EntryInfo) : Prop where
  ordered : es.Pairwise fun a b => a.key < b.key
  exact : ∀ key, (∃ e ∈ es, e.key = key) ↔
    IsKey key ∧ ∃ content t, w.node? (s.entryPlace w key) = some (.file content t) ∧ old t

/-- The files of entries that have an old time are gone, and nothing else has changed. -/
structure Cleaned (s : Store) (old : Instant → Prop) (w w' : World) : Prop where
  gone : ∀ key content t, IsKey key → w.node? (s.entryPlace w key) = some (.file content t) →
    old t → w'.node? (s.entryPlace w key) = none
  kept : ∀ place, (∀ key content t, IsKey key → place = s.entryPlace w key →
    w.node? place = some (.file content t) → ¬ old t) → w'.node? place = w.node? place
  rest : w' = { w with nodes := w'.nodes }

/-- There is no entry: nothing is found for any request, and none is listed. -/
structure Vacant (s : Store) (w : World) : Prop where
  lookup : ∀ packages paths settings,
    outcome (Store.lookup ⟨s.root, packages⟩ paths settings) w = (.ok none, w)
  entries : ∀ packages, outcome (Store.entries ⟨s.root, packages⟩) w = (.ok [], w)

theorem mem_selected {es : List EntryInfo} {now : Instant} {age : Option Span} :
    e ∈ Listing.selected es now age ↔ e ∈ es ∧ IsOld now age e.modified := by
  cases age with
  | none => exact (and_iff_left trivial).symm
  | some age =>
    rw [Listing.selected, List.mem_filter, EntryInfo.isOlder, decide_eq_true_eq, IsOld]
    refine and_congr_right fun _ => ?_
    omega

theorem Tidy.selects (h : s.Tidy w) (now : Instant) (age : Option Span) :
    s.Selects w (IsOld now age) (Listing.selected (s.listed w) now age) where
  ordered := by
    have hordered := listed_ordered h.sound s
    cases age with
    | none => exact hordered
    | some age => exact hordered.filter _
  exact key := by
    constructor
    · rintro ⟨e, he, rfl⟩
      obtain ⟨hlisted, hold⟩ := mem_selected.1 he
      obtain ⟨hkey, content, hnode⟩ := h.of_mem_listed hlisted
      exact ⟨hkey, content, e.modified, hnode, hold⟩
    · rintro ⟨hkey, content, t, hnode, hold⟩
      obtain ⟨e, he, rfl, rfl⟩ := h.exists_mem_listed hkey hnode
      exact ⟨e, mem_selected.2 ⟨he, hold⟩, rfl⟩

/-- Without the entries that are selected the directory is cleaned. -/
theorem Selects.cleaned {es : List EntryInfo} (h : s.Selects w old es)
    (hgone : Gone (es.map fun e => s.entryPlace w e.key) w w') : s.Cleaned old w w' where
  gone key content t hkey hnode hold := by
    obtain ⟨e, he, rfl⟩ := (h.exact key).2 ⟨hkey, content, t, hnode, hold⟩
    rw [hgone.node?_eq, if_pos (List.mem_map.2 ⟨e, he, rfl⟩)]
  kept place hkept := by
    rw [hgone.node?_eq, if_neg]
    intro hmem
    obtain ⟨e, he, rfl⟩ := List.mem_map.1 hmem
    obtain ⟨hkey, content, t, hnode, hold⟩ := (h.exact e.key).1 ⟨e, he, rfl⟩
    exact hkept e.key content t hkey rfl hnode hold
  rest := hgone.rest

/-- Where the file of no entry is, nothing is found and none is listed. -/
theorem Tidy.vacant (h : s.Tidy w)
    (hnone : ∀ key, IsKey key → w.node? (s.entryPlace w key) = none) : s.Vacant w where
  lookup packages paths settings := by
    obtain ⟨t, hlocate⟩ := locate_root h.root
    have hkey : IsKey (Cache.key w.directory paths settings) := isKey_hex _
    have hmissing : w.find? (s.entryPath (Cache.key w.directory paths settings)) = none := by
      rw [World.find?]
      rcases World.locate_join_cases hlocate hkey.plain with hfound | ⟨fault, hfault⟩
      · rw [entryPath, hfound]
        exact hnone _ hkey
      · rw [entryPath, hfault]
    have hfile : w.modified? (fileIn ⟨s.root, packages⟩ w paths settings) = none := by
      rw [World.modified?]
      exact congrArg (Option.map Node.modified) hmissing
    have hroot : w.hasDirectory (Store.mk s.root packages).root = true := h.root
    rw [lookup_run, answer, hroot, hfile]
    rfl
  entries packages := by
    have hnothing : Store.listed ⟨s.root, packages⟩ w = [] := by
      refine List.eq_nil_iff_forall_not_mem.2 fun e he => ?_
      obtain ⟨hkey, content, hnode⟩ := h.of_mem_listed (show e ∈ s.listed w from he)
      rw [hnone e.key hkey] at hnode
      cases hnode
    rw [entries_run (show Store.Reachable ⟨s.root, packages⟩ w from h.reachable), hnothing]

/-- Without the files of all entries there is no entry. -/
theorem Tidy.vacant_of_cleaned (h' : s.Tidy w') (h : s.Tidy w) (hcleaned : s.Cleaned old w w')
    (hall : ∀ t, old t) : s.Vacant w' := by
  refine h'.vacant fun key hkey => ?_
  have hplace : s.entryPlace w' key = s.entryPlace w key := by
    rw [hcleaned.rest]
    rfl
  rw [hplace]
  cases hnode : w.node? (s.entryPlace w key) with
  | none =>
    rw [hcleaned.kept _ fun key' content t _ _ hfile => ?_, hnode]
    rw [hnode] at hfile
    cases hfile
  | some node =>
    obtain ⟨content, t, hfile⟩ := h.files (key ++ ".yml")
      (World.mem_names_iff.2 (by rw [← entryPlace, hnode]; rfl))
    exact hcleaned.gone key content t hkey hfile (hall t)

end LayeredConfig.Store

namespace LayeredConfig.Command

open Store (IsOld)

variable {s : Store} {w : World} {c : Cleaning} {age : Option Span} {old : Instant → Prop}

/-! ## Cleanings -/

/-- What a cleaning prints of the entries that are selected, and what it says after that. -/
def report (selected : List EntryInfo) (more : String) : String :=
  if selected.isEmpty then "No cache entries match the specified criteria.\n"
  else Listing.announcement selected ++ more

/-- A command ends well, and has printed a text and left a world. -/
def Ends (x : ExceptT Failure (StateT Console InWorld) Unit) (console : Console) (w : World)
    (text : String) (w' : World) : Prop :=
  ∃ console', played x console w = (.ok (), console', w') ∧
    console'.printed = console.printed ++ text

section Ends

variable {x : ExceptT Failure (StateT Console InWorld) Unit} {console : Console} {w' : World}
  {text more : String}

theorem ends_print (text : String) (console : Console) (w : World) :
    Ends (Terminal.print text >>= fun _ => pure ()) console w text w :=
  ⟨_, played_bind_of_ok (played_print text console w) _, rfl⟩

/-- What is printed first stands in front of what is printed after that. -/
theorem Ends.after_print (h : Ends x (console.after text) w more w') :
    Ends (Terminal.print text >>= fun _ => x) console w (text ++ more) w' := by
  obtain ⟨console', hplayed, hprinted⟩ := h
  refine ⟨console', (played_bind_of_ok (played_print text console w) _).trans hplayed, ?_⟩
  rw [hprinted, ← String.append_assoc]
  rfl

/-- A question that is asked takes a line, and prints nothing. -/
theorem Ends.after_ask {f : String → ExceptT Failure (StateT Console InWorld) Unit}
    (h : Ends (f console.takeLine.1) console.takeLine.2 w text w') :
    Ends (Terminal.ask >>= f) console w text w' := by
  obtain ⟨console', hplayed, hprinted⟩ := h
  exact ⟨console', (played_bind_of_ok (played_ask console w) _).trans hplayed, hprinted⟩

end Ends

/-- A cleaning lists the entries, and goes on with those that are selected. -/
theorem played_runClean (h : s.Tidy w) (hage : c.age = .ok age) (console : Console) :
    played (runClean s c) console w =
      played (cleanEntries s c (Listing.selected (s.listed w) w.now age)) console w := by
  have hentries : played (orFail (.cache s.root) s.entries) console w =
      (.ok (s.listed w), console, w) := by
    rw [← raised_entries (m := InWorld), played_orFail, entries_run h.reachable]
    rfl
  rw [runClean, hage]
  dsimp only
  rw [played_bind_of_ok hentries, played_bind_of_ok (played_now console w)]

/-- Where no entry is selected a cleaning says so, whatever it would say otherwise. -/
theorem cleanEntries_none {selected : List EntryInfo} (hnone : selected.isEmpty = true)
    (console : Console) (w : World) (more : String) :
    Ends (cleanEntries s c selected) console w (report selected more) w := by
  rw [cleanEntries, report, hnone]
  exact ends_print _ console w

/-- Nothing is removed in a dry run. -/
theorem cleanEntries_dry (hdry : c.dryRun = true) (selected : List EntryInfo) (console : Console)
    (w : World) : Ends (cleanEntries s c selected) console w
      (report selected "\nDry run mode - no changes were made.\n") w := by
  cases hnone : selected.isEmpty with
  | true => exact cleanEntries_none hnone console w _
  | false =>
    rw [cleanEntries, report, hnone, hdry, if_neg Bool.false_ne_true, if_neg Bool.false_ne_true,
      if_pos rfl]
    exact (ends_print _ _ w).after_print

/-- Nothing is removed after an answer that is not yes. -/
theorem cleanEntries_declined (hdry : c.dryRun = false) (hagreed : c.agreed = false)
    (selected : List EntryInfo) (console : Console) (hreply : isYes console.takeLine.1 = false)
    (w : World) : Ends (cleanEntries s c selected) console w
      (report selected (question ++ "Clean cancelled.\n")) w := by
  cases hnone : selected.isEmpty with
  | true => exact cleanEntries_none hnone console w _
  | false =>
    rw [cleanEntries, report, hnone, hdry, hagreed]
    simp only [Bool.false_eq_true, if_false, Bool.not_false, if_true]
    refine Ends.after_print (Ends.after_print (Ends.after_ask ?_))
    rw [Console.takeLine_after, Console.takeLine_after, hreply]
    exact ends_print _ _ w

/-- The number of entries that were removed. -/
def countText (selected : List EntryInfo) : String :=
  "\nDeleted " ++ toString selected.length ++ " cache entries.\n"

/-- The entries that are selected can all be removed. -/
theorem deleteEntries_ends (h : s.Tidy w) {selected : List EntryInfo}
    (hselected : s.Selects w old selected) (console : Console) :
    ∃ w', Ends (deleteEntries s selected) console w (countText selected) w' ∧ s.Tidy w' ∧
      s.Cleaned old w w' := by
  have hkeys : (selected.map (·.key)).Nodup :=
    List.pairwise_map.2 (hselected.ordered.imp fun {a b} hlt (heq : a.key = b.key) =>
      String.lt_irrefl b.key (heq ▸ hlt))
  have hfiles : ∀ e ∈ selected, Store.IsKey e.key ∧
      ∃ content t, w.node? (s.entryPlace w e.key) = some (.file content t) := by
    intro e he
    obtain ⟨hkey, content, t, hnode, -⟩ := (hselected.exact e.key).1 ⟨e, he, rfl⟩
    exact ⟨hkey, content, t, hnode⟩
  obtain ⟨w', hrun, htidy, hgone⟩ := h.removeEntries_run hkeys hfiles console
  refine ⟨w', ⟨console.after (countText selected), ?_, rfl⟩, htidy, hselected.cleaned hgone⟩
  rw [deleteEntries, played_bind_of_ok hrun, played_bind_of_ok (played_print _ _ w'),
    if_neg (Nat.lt_irrefl _)]
  rfl

theorem isYes_iff {reply : String} :
    isYes reply = true ↔ Text.lowered (Text.trimmed reply) ∈ ["y", "yes"] := by
  rw [isYes, List.contains_iff_mem]

/-- The entries are removed if this is agreed beforehand or the answer is yes. -/
theorem cleanEntries_goes_on (h : s.Tidy w) {selected : List EntryInfo}
    (hselected : s.Selects w old selected) (console : Console) (hdry : c.dryRun = false)
    (hyes : c.agreed = true ∨ isYes console.takeLine.1 = true) :
    ∃ w', Ends (cleanEntries s c selected) console w
        (report selected ((if c.agreed then "" else question) ++ countText selected)) w' ∧
      s.Tidy w' ∧ s.Cleaned old w w' := by
  cases hnone : selected.isEmpty with
  | true =>
    obtain rfl := List.isEmpty_iff.1 hnone
    exact ⟨w, cleanEntries_none hnone console w _, h, hselected.cleaned ⟨fun place => by simp, rfl⟩⟩
  | false =>
    rw [cleanEntries, report, hnone, hdry]
    simp only [Bool.false_eq_true, if_false]
    cases hagreed : c.agreed with
    | true =>
      obtain ⟨w', hends, hleft⟩ := deleteEntries_ends h hselected
        (console.after (Listing.announcement selected))
      refine ⟨w', ?_, hleft⟩
      simp only [if_true, String.empty_append]
      exact hends.after_print
    | false =>
      have hreply := hyes.resolve_left (by rw [hagreed]; exact Bool.false_ne_true)
      obtain ⟨w', hends, hleft⟩ := deleteEntries_ends h hselected
        ((console.after (Listing.announcement selected)).after question).takeLine.2
      refine ⟨w', ?_, hleft⟩
      simp only [Bool.not_false, Bool.false_eq_true, if_true, if_false]
      refine Ends.after_print (Ends.after_print (Ends.after_ask ?_))
      rw [Console.takeLine_after, Console.takeLine_after, hreply]
      exact hends

/-- **Cleaning.** In a directory of files, a cleaning announces exactly the entries whose files are
old enough, whether or not it goes on. If it is agreed, beforehand or by the answer to the question,
their files are taken away and nothing else changes; if all entries were asked for, none is left and
no request is answered. In a dry run, or if the answer is not yes, nothing changes. -/
theorem cleaning_removes_what_it_announces (h : s.Tidy w) (age : Option Span) (console : Console) :
    ∃ announced, s.Selects w (IsOld w.now age) announced ∧ ∀ c : Cleaning, c.age = .ok age →
      (c.dryRun = false →
        (c.agreed = true ∨ Text.lowered (Text.trimmed console.takeLine.1) ∈ ["y", "yes"]) →
        ∃ w', Ends (runClean s c) console w
            (report announced ((if c.agreed then "" else question) ++ countText announced)) w' ∧
          s.Cleaned (IsOld w.now age) w w' ∧ (age = none → s.Vacant w')) ∧
      (c.dryRun = true → Ends (runClean s c) console w
        (report announced "\nDry run mode - no changes were made.\n") w) ∧
      (c.dryRun = false → c.agreed = false →
        Text.lowered (Text.trimmed console.takeLine.1) ∉ ["y", "yes"] →
        Ends (runClean s c) console w (report announced (question ++ "Clean cancelled.\n")) w) := by
  have hselected := h.selects w.now age
  refine ⟨_, hselected, fun c hage => ?_⟩
  have hstart := played_runClean h hage console
  refine ⟨fun hdry hyes => ?_, fun hdry => ?_, fun hdry hagreed hreply => ?_⟩
  · obtain ⟨w', hends, htidy, hcleaned⟩ := cleanEntries_goes_on h hselected console hdry
      (hyes.imp_right isYes_iff.2)
    rw [Ends, ← hstart] at hends
    refine ⟨w', hends, hcleaned, ?_⟩
    rintro rfl
    exact htidy.vacant_of_cleaned h hcleaned fun _ => trivial
  · rw [Ends, hstart]
    exact cleanEntries_dry hdry _ console w
  · rw [Ends, hstart]
    refine cleanEntries_declined hdry hagreed _ console ?_ w
    exact Bool.eq_false_iff.2 fun hyes => hreply (isYes_iff.1 hyes)

/-! Of a mixed directory one entry is old enough. -/

open Store (zeroKey)

/-- Another key. -/
def oneKey : String := "1111111111111111111111111111111111111111111111111111111111111111"

/-- A cache with an old entry, one from the future, a file that is no entry, and one that is to be
moved. -/
def mixed : World :=
  { World.holding [(["c"], .directory ⟨0⟩),
      (["c", zeroKey ++ ".yml"], .file "x".toUTF8 ⟨1000000000⟩),
      (["c", oneKey ++ ".yml"], .file "x".toUTF8 ⟨9000000000000⟩),
      (["c", "notes.yml"], .file "x".toUTF8 ⟨0⟩),
      (["c", "." ++ oneKey ++ ".7.tmp"], .file "x".toUTF8 ⟨0⟩)] with
    now := ⟨5000000000000⟩ }

/-- Its store. -/
def mixedStore : Store := ⟨⟨"/c"⟩, Packages.none⟩

theorem files_of_mixed : ∀ name ∈ mixed.names ["c"],
    ∃ content t, mixed.node? (["c"] ++ [name]) = some (.file content t) := by
  have hnames : mixed.names ["c"] =
      [zeroKey ++ ".yml", oneKey ++ ".yml", "notes.yml", "." ++ oneKey ++ ".7.tmp"] := by
    decide +kernel
  rw [hnames]
  simp only [List.forall_mem_cons]
  exact ⟨⟨_, _, rfl⟩, ⟨_, _, rfl⟩, ⟨_, _, rfl⟩, ⟨_, _, rfl⟩, List.forall_mem_nil _⟩

theorem placeOf_mixed : mixed.placeOf mixedStore.root = ["c"] := by decide +kernel

theorem entryPlace_mixed (key : String) :
    mixedStore.entryPlace mixed key = ["c", key ++ ".yml"] := by
  rw [Store.entryPlace, placeOf_mixed]
  rfl

theorem mixed_tidy : mixedStore.Tidy mixed := by
  refine ⟨by decide +kernel, by decide +kernel, placeOf_mixed ▸ files_of_mixed,
    fun key hkey _ => ?_⟩
  exact Nat.lt_of_le_of_lt (mixedStore.utf8ByteSize_entryPath hkey).2 (by decide)

/-- A name that has not the length of an entry's is that of no entry. -/
theorem ne_entryPlace_mixed {name : String} (hname : name.utf8ByteSize ≠ 68) (key : String)
    (hkey : Store.IsKey key) : ["c", name] ≠ mixedStore.entryPlace mixed key := by
  rw [entryPlace_mixed]
  intro hsame
  obtain ⟨rfl, -⟩ := List.cons.inj (List.cons.inj hsame).2
  exact hname hkey.utf8ByteSize_name

/-- The old entry is removed, the one from the future and the other files are not. Without a yes
nothing is removed. -/
theorem old_entry_is_removed : mixedStore.Tidy mixed ∧
    (∃ text w', Ends (runClean mixedStore ⟨false, false, some "1h", true⟩) (Console.start "") mixed
        text w' ∧ w'.node? ["c", zeroKey ++ ".yml"] = none ∧
      ∀ name ∈ [oneKey ++ ".yml", "notes.yml", "." ++ oneKey ++ ".7.tmp"],
        w'.node? ["c", name] = mixed.node? ["c", name]) ∧
    (∃ text w', Ends (runClean mixedStore ⟨false, true, none, true⟩) (Console.start "") mixed
        text w' ∧ mixedStore.Vacant w') ∧
    ∃ text, Ends (runClean mixedStore ⟨false, true, none, false⟩) (Console.start "n\n") mixed
      text mixed := by
  refine ⟨mixed_tidy, ?_, ?_, ?_⟩
  · obtain ⟨announced, -, hclean⟩ := cleaning_removes_what_it_announces mixed_tidy
      (some ⟨3600000000000⟩) (Console.start "")
    obtain ⟨w', hends, hcleaned, -⟩ :=
      (hclean ⟨false, false, some "1h", true⟩ (by decide +kernel)).1 rfl (.inl rfl)
    refine ⟨_, w', hends, ?_, ?_⟩
    · have hgone := hcleaned.gone zeroKey "x".toUTF8 ⟨1000000000⟩ (by decide)
        (by rw [entryPlace_mixed]; rfl)
        (show (1000000000 : Int) + 3600000000000 ≤ 5000000000000 by decide)
      rwa [entryPlace_mixed] at hgone
    · simp only [List.forall_mem_cons]
      refine ⟨hcleaned.kept _ fun key content t _ _ hnode => ?_,
        hcleaned.kept _ fun key _ _ hkey hsame => ?_, hcleaned.kept _ fun key _ _ hkey hsame => ?_,
        List.forall_mem_nil _⟩
      · have hfuture : mixed.node? ["c", oneKey ++ ".yml"] =
          some (.file "x".toUTF8 ⟨9000000000000⟩) := rfl
        cases hfuture.symm.trans hnode
        show ¬ (9000000000000 : Int) + 3600000000000 ≤ 5000000000000
        decide
      · exact absurd hsame (ne_entryPlace_mixed (by decide) key hkey)
      · exact absurd hsame (ne_entryPlace_mixed (by decide) key hkey)
  · obtain ⟨announced, -, hclean⟩ :=
      cleaning_removes_what_it_announces mixed_tidy none (Console.start "")
    obtain ⟨w', hends, -, hvacant⟩ := (hclean ⟨false, true, none, true⟩ rfl).1 rfl (.inl rfl)
    exact ⟨_, w', hends, hvacant rfl⟩
  · obtain ⟨announced, -, hclean⟩ :=
      cleaning_removes_what_it_announces mixed_tidy none (Console.start "n\n")
    exact ⟨_, (hclean ⟨false, true, none, false⟩ rfl).2.2 rfl rfl (by decide +kernel)⟩

/-! The answer may be in capitals, and a long path hides entries. -/

/-- Slashes in front of a name. -/
def manySlashes (count : Nat) : FilePath := ⟨String.ofList (List.replicate count '/' ++ ['c'])⟩

theorem pieces_manySlashes (count : Nat) :
    (manySlashes count).pieces = List.replicate count [] ++ [['c']] := by
  rw [FilePath.pieces, manySlashes, String.toList_ofList]
  induction count with
  | zero => rfl
  | succ count ih =>
    rw [List.replicate_succ, List.replicate_succ, List.cons_append, Text.splitAt, ih]
    rfl

theorem manySlashes_respelled (count : Nat) :
    FilePath.Respelled ⟨"/c"⟩ (manySlashes (count + 1)) where
  inner := by
    have hidle : ∀ piece ∈ List.replicate (count + 1) ([] : List Char),
        FilePath.isIdle piece = true := fun piece hpiece => by
      rw [List.eq_of_mem_replicate hpiece]
      rfl
    rw [pieces_manySlashes, FilePath.innerParts_append, FilePath.innerParts_of_idle hidle]
    rfl
  last := by
    rw [pieces_manySlashes, List.getLast?_append]
    rfl
  absolute := by
    have hfirst : (manySlashes (count + 1)).text.toList.head? = some '/' := by
      rw [manySlashes, String.toList_ofList]
      rfl
    rw [FilePath.isAbsolute, FilePath.isAbsolute, hfirst]
    rfl

theorem utf8ByteSize_manySlashes (count : Nat) :
    (manySlashes count).text.utf8ByteSize = count + 1 := by
  have hnarrow : ∀ c ∈ (manySlashes count).text.toList, c.utf8Size = 1 := by
    rw [manySlashes, String.toList_ofList]
    intro c hc
    rcases List.mem_append.1 hc with hc | hc
    · rw [List.eq_of_mem_replicate hc]
      rfl
    · rw [List.mem_singleton.1 hc]
      rfl
  rw [Store.utf8ByteSize_of_narrow hnarrow, manySlashes, String.toList_ofList, List.length_append,
    List.length_replicate]
  rfl

/-- The mixed directory by a long path. -/
def longStore : Store := ⟨manySlashes 4061, Packages.none⟩

/-- An answer in capitals counts, and where paths of entries are too long nothing is removed. -/
theorem capital_answer_and_long_path :
    (∃ text w', Ends (runClean mixedStore ⟨false, true, none, false⟩) (Console.start "Y\n") mixed
        text w' ∧ Text.trimmed (Console.start "Y\n").takeLine.1 = "Y" ∧
      w'.node? ["c", zeroKey ++ ".yml"] = none) ∧
    ((∀ name ∈ mixed.names (mixed.placeOf longStore.root), ∃ content t,
        mixed.node? (mixed.placeOf longStore.root ++ [name]) = some (.file content t)) ∧
      mixed.hasDirectory longStore.root = true ∧
      (mixed.node? (longStore.entryPlace mixed zeroKey)).isSome = true ∧
      ∃ failure, played (runClean longStore ⟨false, true, none, true⟩) (Console.start "") mixed =
        (.error failure, Console.start "", mixed)) := by
  refine ⟨?_, ?_⟩
  · have hyes : isYes (Console.start "Y\n").takeLine.1 = true := by decide +kernel
    obtain ⟨w', hends, -, hcleaned⟩ := cleanEntries_goes_on (c := ⟨false, true, none, false⟩)
      mixed_tidy (mixed_tidy.selects mixed.now none) (Console.start "Y\n") rfl (.inr hyes)
    rw [Ends, ← played_runClean mixed_tidy rfl] at hends
    refine ⟨_, w', hends, by decide +kernel, ?_⟩
    have hplace := entryPlace_mixed zeroKey
    have hgone := hcleaned.gone zeroKey "x".toUTF8 ⟨1000000000⟩ (by decide) (by rw [hplace]; rfl)
      trivial
    rwa [hplace] at hgone
  · have hsize : longStore.root.text.utf8ByteSize = 4062 := utf8ByteSize_manySlashes 4061
    have hlocate : mixed.locate longStore.root = .ok (["c"], some (.directory ⟨0⟩)) :=
      World.locate_of_respelled (manySlashes_respelled 4060) (by decide)
        (hsize ▸ by decide) rfl
    have hplace : mixed.placeOf longStore.root = ["c"] := (World.placeOf_of_locate hlocate).symm
    have hroot : mixed.hasDirectory longStore.root = true :=
      World.hasDirectory_iff.2 ⟨⟨0⟩, hplace ▸ hlocate⟩
    have hzero : Store.IsKey zeroKey := by decide
    -- The path of the entry is too long, though its name is in the directory.
    have hnone : mixed.find? (longStore.entryPath zeroKey) = none := by
      have hlong := (longStore.utf8ByteSize_entryPath hzero).1
      rw [World.find?]
      split
      next hfound => exact absurd (World.fits_of_locate hfound).2 (by omega)
      · rfl
    have hlisting : mixed.listing longStore.root = .ok (mixed.names ["c"]) := by
      rw [World.listing, hlocate]
    have hkey : (Store.keyOf? (longStore.root.join ⟨zeroKey ++ ".yml"⟩)).isSome = true := by
      rw [(Store.keyOf?_join_iff (World.walk_of_locate hlocate).1 hzero.plain).2 ⟨hzero, rfl⟩]
      rfl
    have hname : zeroKey ++ ".yml" ∈ mixed.names ["c"] := World.mem_names_iff.2 rfl
    obtain ⟨file, fault, hfails⟩ := entries_fails hroot hlisting hname hkey hnone
    refine ⟨hplace ▸ files_of_mixed, hroot, ?_,
      .cache longStore.root (Store.unknown file fault), ?_⟩
    · rw [Store.entryPlace, hplace]
      rfl
    have hentries : played (orFail (.cache longStore.root) longStore.entries) (Console.start "")
        mixed = (.error (.cache longStore.root (Store.unknown file fault)), Console.start "",
          mixed) := by
      rw [← raised_entries (m := InWorld), played_orFail, hfails]
      rfl
    exact played_bind_of_error hentries _

end LayeredConfig.Command
