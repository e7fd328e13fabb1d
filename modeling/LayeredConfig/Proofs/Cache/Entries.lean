import LayeredConfig.Proofs.Cache.Answer
import LayeredConfig.Proofs.Outside

/-!
# What a cache lists

The list of entries as a function of the world (`listed`). The list fails if a file with the name
of an entry is not found under its path (`entries_fails`). A file whose name ends in `.tmp`, as
those do that entries are written to first, is no entry, so it makes no difference to the list.
-/

namespace LayeredConfig

/-- What is known of the entry in a file, if it is one. -/
def World.inspected (w : World) (file : FilePath) : Option EntryInfo :=
  match Store.keyOf? file, w.find? file with
  | some key, some node =>
    let inputs := match w.entry file with
      | .ok e => e.inputs
      | .error _ => []
    some ⟨key, inputs, node.status.size, node.status.modified, file⟩
  | _, _ => none

/-- The entries of a store in a world. -/
def Store.listed (s : Store) (w : World) : List EntryInfo :=
  if w.hasDirectory s.root then
    match w.listing s.root with
    | .ok names =>
      ((names.map fun name => s.root.join ⟨name⟩).filterMap w.inspected).mergeSort
        fun a b => decide (a.key ≤ b.key)
    | .error _ => []
  else []

/-- What has the name of an entry is found under its path. A path may be too long for that. -/
def Store.Reachable (s : Store) (w : World) : Prop :=
  ∀ names, w.listing s.root = .ok names → ∀ name ∈ names,
    (Store.keyOf? (s.root.join ⟨name⟩)).isSome → (w.find? (s.root.join ⟨name⟩)).isSome

theorem inspect_run {w : World} {file : FilePath}
    (h : (Store.keyOf? file).isSome → (w.find? file).isSome) :
    outcome (Store.inspect file) w = (.ok (w.inspected file), w) := by
  have hstatus : outcome (Host.status file : ExceptT Error InWorld _) w =
      (.ok ((w.find? file).map Node.status), w) := rfl
  unfold Store.inspect World.inspected
  cases hkey : Store.keyOf? file with
  | none => rfl
  | some key =>
    obtain ⟨node, hnode⟩ := Option.isSome_iff_exists.1 (h (by rw [hkey]; rfl))
    dsimp only
    rw [outcome_bind_of_ok hstatus, hnode]
    dsimp only [Option.map_some]
    rw [outcome_bind_of_ok (readEntry_run w file)]
    rfl

theorem inspect_fails {w : World} {file : FilePath} (hkey : (Store.keyOf? file).isSome)
    (hnode : w.find? file = none) :
    ∃ fault, outcome (Store.inspect file) w = (.error (Store.unknown file fault), w) := by
  have hstatus : outcome (Host.status file : ExceptT Error InWorld _) w =
      (.ok ((w.find? file).map Node.status), w) := rfl
  have hread : outcome (Host.read file : ExceptT Error InWorld _) w = (.ok (w.content file), w) :=
    rfl
  obtain ⟨fault, hrefusal⟩ : ∃ fault,
      outcome (Store.refusal file : ExceptT Error InWorld _) w = (.ok fault, w) := by
    rw [Store.refusal, outcome_bind_of_ok hread]
    cases w.content file with
    | error fault => exact ⟨fault, rfl⟩
    | ok bytes => exact ⟨.missing, rfl⟩
  obtain ⟨key, hkey⟩ := Option.isSome_iff_exists.1 hkey
  refine ⟨fault, ?_⟩
  rw [Store.inspect, hkey]
  dsimp only
  rw [outcome_bind_of_ok hstatus, hnode]
  dsimp only [Option.map_none]
  rw [outcome_bind_of_ok hrefusal]
  rfl

theorem inspectAll_run {w : World} {files : List FilePath}
    (h : ∀ file ∈ files, (Store.keyOf? file).isSome → (w.find? file).isSome) :
    outcome (Store.inspectAll files) w = (.ok (files.filterMap w.inspected), w) := by
  induction files with
  | nil => rfl
  | cons file rest ih =>
    obtain ⟨hfile, hrest⟩ := List.forall_mem_cons.1 h
    rw [Store.inspectAll, outcome_bind_of_ok (inspect_run hfile)]
    cases hinfo : w.inspected file with
    | none => rw [List.filterMap_cons_none hinfo, ih hrest]
    | some info =>
      rw [List.filterMap_cons_some hinfo]
      dsimp only
      rw [outcome_bind_of_ok (ih hrest)]
      rfl

/-- A file that is not found under its path makes the list fail, if it has the name of an entry. -/
theorem inspectAll_fails {w : World} {files : List FilePath} {file : FilePath}
    (hfile : file ∈ files) (hkey : (Store.keyOf? file).isSome) (hnode : w.find? file = none) :
    ∃ file ∈ files, ∃ fault,
      outcome (Store.inspectAll files) w = (.error (Store.unknown file fault), w) := by
  induction files with
  | nil => cases hfile
  | cons first rest ih =>
    rw [Store.inspectAll]
    by_cases hfirst : (Store.keyOf? first).isSome → (w.find? first).isSome
    · have hrest : file ∈ rest := by
        refine (List.mem_cons.1 hfile).resolve_left fun heq => ?_
        rw [← heq, hnode] at hfirst
        cases hfirst hkey
      obtain ⟨file', hfile', fault, hfails⟩ := ih hrest
      refine ⟨file', List.mem_cons_of_mem _ hfile', fault, ?_⟩
      rw [outcome_bind_of_ok (inspect_run hfirst)]
      cases w.inspected first with
      | none => exact hfails
      | some info => exact outcome_bind_of_error hfails _
    · obtain ⟨hkey', hnone⟩ := Classical.not_imp.1 hfirst
      obtain ⟨fault, hfails⟩ := inspect_fails hkey' (Option.not_isSome_iff_eq_none.1 hnone)
      exact ⟨first, List.mem_cons_self, fault, outcome_bind_of_error hfails _⟩

theorem entries_run {s : Store} {w : World} (h : s.Reachable w) :
    outcome s.entries w = (.ok (s.listed w), w) := by
  have hlist : outcome (Host.list s.root : ExceptT Error InWorld _) w =
      (.ok (w.listing s.root), w) := rfl
  rw [Store.entries, outcome_bind_of_ok (isDirectory_run w s.root), Store.listed]
  cases w.hasDirectory s.root with
  | false => rfl
  | true =>
    simp only [Bool.not_true, Bool.false_eq_true, if_false, if_true]
    rw [outcome_bind_of_ok hlist]
    cases hnames : w.listing s.root with
    | error fault => rfl
    | ok names =>
      dsimp only
      rw [outcome_bind_of_ok (inspectAll_run (List.forall_mem_map.2 (h names hnames)))]
      rfl

/-- The list fails if a name of an entry is not found under its path. -/
theorem entries_fails {s : Store} {w : World} {names : List String} {name : String}
    (hroot : w.hasDirectory s.root = true) (hnames : w.listing s.root = .ok names)
    (hname : name ∈ names) (hkey : (Store.keyOf? (s.root.join ⟨name⟩)).isSome)
    (hnone : w.find? (s.root.join ⟨name⟩) = none) :
    ∃ file fault, outcome s.entries w = (.error (Store.unknown file fault), w) := by
  have hlist : outcome (Host.list s.root : ExceptT Error InWorld _) w = (.ok (.ok names), w) := by
    rw [← hnames]
    rfl
  have hfile : s.root.join ⟨name⟩ ∈ names.map fun name => s.root.join ⟨name⟩ :=
    List.mem_map.2 ⟨name, hname, rfl⟩
  obtain ⟨file, -, fault, hfails⟩ := inspectAll_fails hfile hkey hnone
  refine ⟨file, fault, ?_⟩
  rw [Store.entries, outcome_bind_of_ok (isDirectory_run w s.root), hroot]
  simp only [Bool.not_true, Bool.false_eq_true, if_false]
  rw [outcome_bind_of_ok hlist]
  dsimp only
  rw [outcome_bind_of_error hfails]

/-! ## Files that are no entries -/

/-- A file whose name ends in `.tmp` is no entry. -/
theorem keyOf?_tmp {root : FilePath} (hroot : root.text ≠ "") {name : String}
    (hname : FilePath.Plain (name ++ ".tmp")) :
    Store.keyOf? (root.join ⟨name ++ ".tmp"⟩) = none := by
  rw [Store.keyOf?, if_neg]
  rw [FilePath.ending?, FilePath.fileName?_join hname hroot, Option.bind_some, beq_iff_eq,
    Option.map_eq_some_iff]
  rintro ⟨ending, hending, hyml⟩
  refine FilePath.cutName_tmp name ?_
  rw [hending, ← hyml, String.toList_ofList]

variable {S : Place → Prop} {w w' : World}

theorem inspected_of_keyOf?_eq_none {file : FilePath} (h : Store.keyOf? file = none) :
    w.inspected file = none := by
  rw [World.inspected, h]

/-- What is known of an entry stays the same when only other files change. -/
theorem inspected_eq (hw : SameOutside S w w') {file : FilePath} (hfile : w.Avoids S file) :
    w'.inspected file = w.inspected file := by
  have hentry (e : Envelope) : w'.entry file = .ok e ↔ w.entry file = .ok e := by
    rw [World.entry_eq_ok_iff, World.entry_eq_ok_iff, hw.find?_eq hfile]
  have hinputs : (match w'.entry file with
      | .ok e => e.inputs
      | .error _ => []) = match w.entry file with
      | .ok e => e.inputs
      | .error _ => [] := by
    cases h : w.entry file with
    | ok e => rw [(hentry e).2 h]
    | error fault =>
      cases h' : w'.entry file with
      | ok e => cases h.symm.trans ((hentry e).1 h')
      | error fault' => rfl
  rw [World.inspected, World.inspected, hw.find?_eq hfile, hinputs]

/-- Writing a file whose name ends in `.tmp` does not change what a cache lists. -/
theorem listed_put {s : Store} {dir : Place} {t u : Instant} {name : String} {content : ByteArray}
    (hroot : w.locate s.root = .ok (dir, some (.directory t)))
    (hnames : ∀ n ∈ w.names dir, FilePath.Plain n) (hname : FilePath.Plain (name ++ ".tmp"))
    (hfree : SameOutside.NoDirectory w dir (name ++ ".tmp")) :
    s.listed (w.put (dir ++ [name ++ ".tmp"]) (.file content u)) = s.listed w := by
  generalize hput : w.put (dir ++ [name ++ ".tmp"]) (.file content u) = w'
  have hw : SameOutside (· = dir ++ [name ++ ".tmp"]) w w' := hput ▸ SameOutside.put hfree _ _
  have htmp (v : World) : v.inspected (s.root.join ⟨name ++ ".tmp"⟩) = none :=
    inspected_of_keyOf?_eq_none (keyOf?_tmp (World.walk_of_locate hroot).1 hname)
  have hsame : ∀ n ∈ w.names dir,
      w'.inspected (s.root.join ⟨n⟩) = w.inspected (s.root.join ⟨n⟩) := by
    intro n hn
    by_cases hlast : n = name ++ ".tmp"
    · rw [hlast, htmp, htmp]
    · exact inspected_eq hw (World.avoids_join hroot (hnames n hn) (by simpa using hlast))
  have hlisting : w.listing s.root = .ok (w.names dir) := by
    rw [World.listing, hroot]
  have hlisting' : w'.listing s.root = .ok (w'.names dir) := by
    rw [World.listing, hw.locate_directory hroot]
  rw [Store.listed, Store.listed, hw.hasDirectory_eq, hlisting, hlisting']
  dsimp only
  have hfound : ((w'.names dir).map fun n => s.root.join ⟨n⟩).filterMap w'.inspected =
      ((w.names dir).map fun n => s.root.join ⟨n⟩).filterMap w.inspected := by
    have hnames' : w'.names dir = (w.nodes.filter fun e => e.1 != dir ++ [name ++ ".tmp"]).filterMap
        (fun e => if e.1.dropLast == dir then e.1.getLast? else none) ++ [name ++ ".tmp"] := by
      rw [← hput, World.names, World.put, List.filterMap_append]
      simp
    rw [hnames', List.map_append, List.filterMap_append, List.map_singleton,
      List.filterMap_cons_none (htmp w'), List.filterMap_nil, List.append_nil, List.filterMap_map,
      List.filterMap_map, World.names, List.filterMap_filterMap, List.filterMap_filterMap,
      List.filterMap_filter]
    refine List.filterMap_congr fun e he => ?_
    cases hlast : if e.1.dropLast == dir then e.1.getLast? else none with
    | none => split <;> rfl
    | some n =>
      rw [Option.bind_some, Option.bind_some]
      split
      · exact hsame n (List.mem_filterMap.2 ⟨e, he, hlast⟩)
      next hplace =>
        rw [bne_iff_ne, not_not] at hplace
        rw [hplace] at hlast
        obtain rfl : name ++ ".tmp" = n := by simpa using hlast
        exact (htmp w).symm
  rw [hfound]

end LayeredConfig
