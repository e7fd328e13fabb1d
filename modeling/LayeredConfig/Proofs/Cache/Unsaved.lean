import LayeredConfig.Proofs.Cache.Serving

/-!
# Results that cannot be saved

A result that cannot be saved leaves nothing behind but the directory of the cache, if that could be
made, and the file that the entry was written to first (`Store.save_failed`). Neither is an entry.
So every request that is not about this file is answered as before, and the same entries are listed,
or the list fails as it did.
-/

namespace LayeredConfig

open Cache (Query query)

/-- A new file changes no names but its own. -/
theorem World.filter_names_put {w : World} {dir : Place} {name : String} {test : String → Bool}
    (hname : test name = false) (node : Node) :
    ((w.put (dir ++ [name]) node).names dir).filter test = (w.names dir).filter test := by
  have hnames : (w.put (dir ++ [name]) node).names dir =
      (w.nodes.filter fun e => e.1 != dir ++ [name]).filterMap
        (fun e => if e.1.dropLast == dir then e.1.getLast? else none) ++ [name] := by
    rw [World.names, World.put, List.filterMap_append]
    simp
  have hlast : [name].filter test = [] := List.filter_cons_of_neg (by simp [hname])
  rw [hnames, List.filter_append, hlast, List.append_nil, World.names, List.filter_filterMap,
    List.filter_filterMap, List.filterMap_filter]
  refine List.filterMap_congr fun e _ => ?_
  split
  · rfl
  next hplace =>
    rw [bne_iff_ne, not_not] at hplace
    rw [hplace]
    simp [Option.filter, hname]

namespace Store

variable {s : Store} {w w' : World} {P : FilePath → Prop} {paths : List FilePath}
  {settings : List String} {tree : Tree} {l l' : Ledger} {fault : Error}

/-- The place of the file that the entry of a request is written to first. -/
def stagingPlace (s : Store) (w : World) (paths : List FilePath) (settings : List String) : Place :=
  w.placeOf s.root ++ [stagingName w (query w paths settings).key]

/-- No entry is at this place. -/
theorem avoids_stagingPlace (hroot : w.hasDirectory s.root = true) {key : String} (hkey : IsKey key)
    (paths : List FilePath) (settings : List String) :
    w.Avoids (· = s.stagingPlace w paths settings) (s.entryPath key) := by
  obtain ⟨t, hlocate⟩ := locate_root hroot
  exact World.avoids_join hlocate hkey.plain (entryPlace_ne_staging s w key _)

/-- A file of this name in the directory of the cache is taken for an entry. -/
def namesEntry (s : Store) (name : String) : Bool := (keyOf? (s.root.join ⟨name⟩)).isSome

/-- The file that an entry is written to first is none. -/
theorem namesEntry_stagingName {t : Instant} {dir : Place}
    (hroot : w'.locate s.root = .ok (dir, some (.directory t))) (htoken : '/' ∉ w.token.toList)
    (paths : List FilePath) (settings : List String) :
    s.namesEntry (stagingName w (query w paths settings).key) = false := by
  have hplain : FilePath.Plain (stagingName w (query w paths settings).key) :=
    Cache.plain_stagingName w.directory paths settings htoken
  rw [namesEntry, stagingName, keyOf?_tmp (World.walk_of_locate hroot).1 hplain]
  rfl

/-- A world that differs from another only in the file that an entry is written to first, if at
all. -/
structure Littered (s : Store) (w : World) (place : Place) (w₁ w' : World) : Prop extends
    SameOutside (· = place) w₁ w' where
  names : (w'.names (w.placeOf s.root)).filter s.namesEntry =
    (w₁.names (w.placeOf s.root)).filter s.namesEntry

theorem Littered.of_sameFiles {w₁ : World} {place : Place} (h : SameFiles w₁ w')
    (htoken : w'.token = w₁.token) : s.Littered w place w₁ w' where
  toSameOutside := .of_sameFiles h htoken
  names := by rw [World.names, World.names, h.nodes]

/-- Where the cache is there and storing an envelope fails, at most this file is new. -/
theorem Located.littered {w₁ : World} {e : Envelope} (h : s.Located (w.placeOf s.root) w₁)
    (htoken : w₁.token = w.token) (hdirectory : w₁.directory = w.directory)
    (hstored : s.stored w₁ paths settings e = (.error fault, w')) :
    s.Littered w (s.stagingPlace w paths settings) w₁ w' := by
  have hinside := h.sameOutside_stored paths settings e
  rw [hstored] at hinside
  have hstaging : stagingName w₁ (query w₁ paths settings).key =
      stagingName w (query w paths settings).key := by
    rw [stagingName, stagingName, htoken, query, query, hdirectory]
  unfold stored at hstored
  split at hstored
  · cases hstored
    exact .of_sameFiles (.refl _) rfl
  next text _ =>
    rcases hreplaced : s.replaced w₁ (Cache.key w₁.directory paths settings) text with ⟨r, w₂⟩
    have hcases := replaced_cases h hreplaced
    rw [hstaging] at hcases
    rw [hreplaced] at hstored
    cases r with
    | ok u => cases hstored
    | error fault' =>
      obtain rfl : w₂ = w' := congrArg Prod.snd hstored
      obtain ⟨-, rfl | rfl⟩ := hcases.resolve_right fun hok => by cases hok.1
      · exact .of_sameFiles (.refl _) rfl
      · obtain ⟨t, hlocate⟩ := h.root
        refine ⟨SameOutside.put (fun u hu => ?_) _ _,
          World.filter_names_put (namesEntry_stagingName hlocate (htoken ▸ h.token) _ _) _⟩
        have hkept := (hinside.directories _ u).2 hu
        rw [World.node?_put (by simp), if_pos rfl] at hkept
        cases hkept

/-- If saving fails, at most this file is new once the directory has been made. -/
theorem save_failed (h : s.Beside w P)
    (hsave : outcome (s.save paths settings tree l) w = (.ok (l', .error fault), w')) :
    s.Littered w (s.stagingPlace w paths settings) (s.opened w) w' := by
  obtain ⟨l₁, w₁, hsigned, hnoted⟩ := signed_ends l w
  obtain ⟨made, w₂, hmade, hfiles, htoken, hthere⟩ :=
    opened_of_sameFiles h.nonempty hnoted.sameFiles
  have htokens : w₂.token = w.token := htoken.trans (by obtain ⟨_, _, rfl⟩ := hnoted; rfl)
  have hdirectory : w₂.directory = w.directory :=
    hfiles.directory.trans (s.opened_grown w).directory
  have hopened : s.Littered w (s.stagingPlace w paths settings) (s.opened w) w₂ :=
    .of_sameFiles hfiles (htokens.trans (s.opened_grown w).token.symm)
  rw [save_eq hsigned] at hsave
  cases made with
  | error fault' =>
    rw [saveSigned_of_fault hmade] at hsave
    cases hsave
    exact hopened
  | ok u =>
    rw [saveSigned_of_made hmade] at hsave
    have hstored : s.stored w₂ paths settings (envelope w₂ paths tree l₁) = (.error fault, w') :=
      Prod.ext (congrArg Prod.snd (Except.ok.inj (congrArg (fun r => r.1) hsave)))
        (congrArg (fun r => r.2) hsave)
    obtain ⟨t, hlocate⟩ := locate_root (hthere rfl)
    have hplace : w₂.placeOf s.root = w.placeOf s.root := by
      rw [World.placeOf, World.placeOf, hdirectory]
    have hlocated : s.Located (w.placeOf s.root) w₂ :=
      ⟨⟨t, hplace ▸ hlocate⟩, by rw [htokens]; exact h.token⟩
    have hlittered := hlocated.littered htokens hdirectory hstored
    exact ⟨hopened.toSameOutside.trans hlittered.toSameOutside,
      hlittered.names.trans hopened.names⟩

/-- Every request is answered as before, unless it is about the file that the entry was written to
first: its inputs or the ledger of its own entry name this file. -/
theorem answer_of_save_failed (h : s.Beside w P)
    (hsave : outcome (s.save paths settings tree l) w = (.ok (l', .error fault), w'))
    {paths' : List FilePath} {settings' : List String}
    (hpaths : ∀ p ∈ paths', w.Avoids (· = s.stagingPlace w paths settings) p)
    (hledger : ∀ e, w.entry (s.fileIn w paths' settings') = .ok e →
      e.ledger.Apart w (· = s.stagingPlace w paths settings) s.packages) :
    (s.answer w' paths' settings').1 = (s.answer w paths' settings').1 := by
  have hw := (save_failed h hsave).toSameOutside
  cases hroot : w.hasDirectory s.root with
  | true =>
    rw [opened_eq hroot] at hw
    obtain ⟨key, hkey, hfile⟩ : ∃ key, IsKey key ∧ s.fileIn w paths' settings' = s.entryPath key :=
      ⟨_, (query w paths' settings').isKey, rfl⟩
    refine answer_fst_eq hw ?_ hpaths hledger
    rw [hfile]
    exact avoids_stagingPlace hroot hkey paths settings
  | false =>
    have hbefore : (s.answer w paths' settings').1 = none := by
      rw [answer, hroot]
      rfl
    rw [hbefore, Option.eq_none_iff_forall_ne_some]
    intro hit hanswer
    obtain ⟨e, written, hanswers, -⟩ := answer_fst_eq_some_iff.1 hanswer
    obtain ⟨node, hfile, -⟩ := World.modified?_eq_some.1 hanswers.dated
    have hthere := node?_entryPlace h.nonempty (query w' paths' settings').isKey hfile
    have hdirectory := hw.directory.trans (s.opened_grown w).directory
    have hplace : s.entryPlace w' (query w' paths' settings').key =
        s.entryPlace w (query w' paths' settings').key := by
      rw [entryPlace, entryPlace, World.placeOf, World.placeOf, hdirectory]
    rw [hplace, hw.elsewhere _ (entryPlace_ne_staging s w _ _), entryPlace,
      h.vacant hroot] at hthere
    cases hthere

/-! ## What is listed -/

theorem inspect_eq {file : FilePath} (h : w'.locate file = w.locate file) :
    ∃ r, outcome (inspect file) w = (r, w) ∧ outcome (inspect file) w' = (r, w') := by
  have hfind : w'.find? file = w.find? file := by rw [World.find?, World.find?, h]
  have hcontent : w'.content file = w.content file := by rw [World.content, World.content, h]
  have hentry : w'.entry file = w.entry file := by
    rw [World.entry, World.entry, World.text, World.text, hcontent]
  by_cases hgood : (keyOf? file).isSome → (w.find? file).isSome
  · refine ⟨_, inspect_run hgood, ?_⟩
    rw [inspect_run (hfind.symm ▸ hgood), World.inspected, World.inspected, hfind, hentry]
  · obtain ⟨hkey, hnone⟩ := Classical.not_imp.1 hgood
    obtain ⟨key, hkey⟩ := Option.isSome_iff_exists.1 hkey
    rw [Option.not_isSome_iff_eq_none] at hnone
    have hfails {v : World} (hv : v.locate file = w.locate file) :
        outcome (inspect file) v = (outcome (do throw (unknown file (← refusal file))) v) := by
      have hnone' : v.find? file = none := by rw [World.find?, hv, ← World.find?, hnone]
      have hstatus : outcome (Host.status file : ExceptT Error InWorld _) v = (.ok none, v) := by
        change (Except.ok ((v.find? file).map Node.status), v) = _
        rw [hnone']
        rfl
      rw [inspect, hkey]
      dsimp only
      rw [outcome_bind_of_ok hstatus]
    obtain ⟨fault, hrefusal⟩ : ∃ fault, ∀ v : World, v.content file = w.content file →
        outcome (refusal file : ExceptT Error InWorld _) v = (.ok fault, v) := by
      have hread (v : World) : outcome (Host.read file : ExceptT Error InWorld _) v =
          (.ok (v.content file), v) := rfl
      cases w.content file with
      | error fault =>
        exact ⟨fault, fun v hv => by rw [refusal, outcome_bind_of_ok (hread v), hv]; rfl⟩
      | ok bytes =>
        exact ⟨.missing, fun v hv => by rw [refusal, outcome_bind_of_ok (hread v), hv]; rfl⟩
    rw [hfails rfl, hfails h, outcome_bind_of_ok (hrefusal w rfl),
      outcome_bind_of_ok (hrefusal w' hcontent)]
    exact ⟨_, rfl, rfl⟩

theorem inspectAll_eq {files : List FilePath} (h : ∀ file ∈ files, w'.locate file = w.locate file) :
    ∃ r, outcome (inspectAll files) w = (r, w) ∧ outcome (inspectAll files) w' = (r, w') := by
  induction files with
  | nil => exact ⟨_, rfl, rfl⟩
  | cons file rest ih =>
    obtain ⟨hfile, hrest⟩ := List.forall_mem_cons.1 h
    obtain ⟨r, hw, hw'⟩ := inspect_eq hfile
    obtain ⟨rs, hws, hws'⟩ := ih hrest
    rw [inspectAll]
    cases r with
    | error e => exact ⟨_, outcome_bind_of_error hw _, outcome_bind_of_error hw' _⟩
    | ok info =>
      rw [outcome_bind_of_ok hw, outcome_bind_of_ok hw']
      cases info with
      | none => exact ⟨rs, hws, hws'⟩
      | some info =>
        dsimp only
        cases rs with
        | error e => exact ⟨_, outcome_bind_of_error hws _, outcome_bind_of_error hws' _⟩
        | ok infos =>
          rw [outcome_bind_of_ok hws, outcome_bind_of_ok hws']
          exact ⟨_, rfl, rfl⟩

/-- Files that do not have the name of an entry make no difference. -/
theorem inspectAll_filter (files : List FilePath) (w : World) :
    outcome (inspectAll (files.filter fun file => (keyOf? file).isSome)) w =
      outcome (inspectAll files) w := by
  induction files generalizing w with
  | nil => rfl
  | cons file rest ih =>
    cases hkey : keyOf? file with
    | none =>
      have hnone : outcome (inspect file : ExceptT Error InWorld _) w = (.ok none, w) := by
        rw [inspect, hkey]
        rfl
      rw [List.filter_cons_of_neg (by simp [hkey]), inspectAll, outcome_bind_of_ok hnone, ih]
    | some key =>
      rw [List.filter_cons_of_pos (by simp [hkey]), inspectAll, inspectAll, outcome_bind,
        outcome_bind]
      rcases outcome (inspect file : ExceptT Error InWorld _) w with ⟨e | info, w₁⟩
      · rfl
      · cases info with
        | none => exact ih w₁
        | some info =>
          dsimp only
          rw [outcome_bind, outcome_bind, ih]

/-- The entries of a cache that is there are those of its files that have the name of one. -/
theorem outcome_entries {dir : Place} {t : Instant}
    (hroot : w.locate s.root = .ok (dir, some (.directory t))) :
    outcome s.entries w = outcome (do
      let found ← inspectAll
        (((w.names dir).filter s.namesEntry).map fun name => s.root.join ⟨name⟩)
      return found.mergeSort fun a b => decide (a.key ≤ b.key)) w := by
  have hdirectory : w.hasDirectory s.root = true := by
    rw [World.hasDirectory, World.find?, hroot]
    rfl
  have hlist : outcome (Host.list s.root : ExceptT Error InWorld _) w =
      (.ok (.ok (w.names dir)), w) := by
    change (Except.ok (w.listing s.root), w) = _
    rw [World.listing, hroot]
  have hfilter : ((w.names dir).filter s.namesEntry).map (fun name => s.root.join ⟨name⟩) =
      ((w.names dir).map fun name => s.root.join ⟨name⟩).filter fun file =>
        (keyOf? file).isSome := by
    rw [List.filter_map]
    rfl
  rw [entries, outcome_bind_of_ok (isDirectory_run w s.root), hdirectory]
  refine (outcome_bind_of_ok hlist _).trans ?_
  dsimp only
  rw [outcome_bind, outcome_bind, hfilter, inspectAll_filter]

/-- Two caches list the same, or fail to for the same reason, if the names of entries are the same
and what is there. -/
theorem entries_eq {dir : Place} {t t' : Instant}
    (hroot : w.locate s.root = .ok (dir, some (.directory t)))
    (hroot' : w'.locate s.root = .ok (dir, some (.directory t')))
    (hplain : ∀ name ∈ w.names dir, FilePath.Plain name)
    (hnames : (w'.names dir).filter s.namesEntry = (w.names dir).filter s.namesEntry)
    (hnodes : ∀ name, s.namesEntry name = true →
      w'.node? (dir ++ [name]) = w.node? (dir ++ [name])) :
    (outcome s.entries w').1 = (outcome s.entries w).1 := by
  have hlocate : ∀ file ∈ ((w.names dir).filter s.namesEntry).map fun name => s.root.join ⟨name⟩,
      w'.locate file = w.locate file := by
    intro file hfile
    obtain ⟨name, hname, rfl⟩ := List.mem_map.1 hfile
    obtain ⟨hmem, hentry⟩ := List.mem_filter.1 hname
    rw [World.locate_join hroot (hplain name hmem), World.locate_join hroot' (hplain name hmem),
      hnodes name hentry]
  obtain ⟨r, hw, hw'⟩ := inspectAll_eq hlocate
  rw [outcome_entries hroot, outcome_entries hroot', hnames]
  cases r with
  | error e => rw [outcome_bind_of_error hw, outcome_bind_of_error hw']
  | ok infos =>
    rw [outcome_bind_of_ok hw, outcome_bind_of_ok hw']
    rfl

/-- The same entries are listed as before, or the list fails as it did. -/
theorem entries_of_save_failed (h : s.Beside w P)
    (hsave : outcome (s.save paths settings tree l) w = (.ok (l', .error fault), w')) :
    (outcome s.entries w').1 = (outcome s.entries w).1 := by
  have hw := save_failed h hsave
  have habsent {v : World} (hroot : v.hasDirectory s.root = false) :
      (outcome s.entries v).1 = .ok [] := by
    rw [entries, outcome_bind_of_ok (isDirectory_run v s.root), hroot]
    rfl
  cases hmade : (s.opened w).hasDirectory s.root with
  | false =>
    have hbefore : w.hasDirectory s.root = false := by
      cases hroot : w.hasDirectory s.root with
      | false => rfl
      | true => rw [opened_eq hroot, hroot] at hmade; cases hmade
    rw [habsent ((hw.hasDirectory_eq s.root).trans hmade), habsent hbefore]
  | true =>
    obtain ⟨t, hlocate⟩ := locate_root hmade
    have hplace : (s.opened w).placeOf s.root = w.placeOf s.root := by
      rw [World.placeOf, World.placeOf, (s.opened_grown w).directory]
    rw [hplace] at hlocate
    have hafter : (outcome s.entries w').1 = (outcome s.entries (s.opened w)).1 := by
      refine entries_eq hlocate (hw.locate_directory hlocate) (fun name hname => ?_) hw.names
        fun name hname => ?_
      · exact ((s.opened_grown w).sound h.sound).plain_of_mem_names hname
      · refine hw.elsewhere _ fun hstaging => ?_
        rw [stagingPlace, List.append_cancel_left_eq, List.singleton_inj] at hstaging
        rw [hstaging, namesEntry_stagingName hlocate h.token] at hname
        cases hname
    rw [hafter]
    cases hroot : w.hasDirectory s.root with
    | true => rw [opened_eq hroot]
    | false =>
      have hnone : (s.opened w).names (w.placeOf s.root) = [] := by
        rw [List.eq_nil_iff_forall_not_mem]
        intro name hname
        rw [World.mem_names_iff, h.vacant hroot] at hname
        cases hname
      have hempty : outcome (inspectAll [] : ExceptT Error InWorld _) (s.opened w) =
          (.ok [], s.opened w) := rfl
      rw [habsent hroot, outcome_entries hlocate, hnone, List.filter_nil, List.map_nil,
        outcome_bind_of_ok hempty, List.mergeSort_nil]
      rfl

end Store

end LayeredConfig
