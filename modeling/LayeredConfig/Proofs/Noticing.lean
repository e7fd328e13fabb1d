import LayeredConfig.Proofs.Alike
import LayeredConfig.Proofs.Cache.Save
import LayeredConfig.Proofs.EntryText

/-!
# Missed files are noticed when they appear

A ledger notes every entry of `_include` that a loader could not satisfy (`Heeding`). When the entry
can be satisfied later, the ledger says that something has changed. The ledger does not search as
the loader does. It looks at paths that it has noted before, and what it has noted first of several
spellings stays. So it has to be shown that a file that the loader finds lies under the spelling
that was noted.

That spelling may be longer than the one the loader uses, and too long for the system.
-/

namespace LayeredConfig

variable {α β : Type}

/-! ## Notes -/

/-- A note that a load makes of a missed file, under a path. -/
structure Missed.Candid (path : FilePath) (miss : Missed) : Prop where
  path_eq : miss.path = path
  isNormal : miss.package = none → path.IsNormal
  parsed : ∀ package, miss.package = some package → ∃ entry,
    IncludeEntry.parse path.text = .ok entry ∧ entry.package = some package ∧
      entry.optional = true ∧ miss.file = some ⟨entry.path⟩

/-- All notes on missed files are such as loads make. -/
def Ledger.Candid (l : Ledger) : Prop := ∀ e ∈ l.missed, e.2.Candid e.1

/-- What is to be noted of an entry that was met is such a note. -/
theorem Meeting.candid_of_mem_misses {s : Settings} {w : World} {m : Meeting} (hm : m.In s w)
    (hmissed : m.found = none) {directory : FilePath} {e : FilePath × Missed}
    (he : e ∈ m.misses directory) : e.2.Candid e.1 := by
  rw [misses, if_neg (by rw [hmissed]; exact Bool.false_ne_true)] at he
  cases hpackage : m.entry.package with
  | some package =>
    rw [hpackage] at he
    obtain rfl := List.mem_singleton.1 he
    refine ⟨rfl, fun hnone => absurd hnone (Option.some_ne_none package), ?_⟩
    rintro _ ⟨rfl⟩
    exact ⟨m.entry, hm.parsed, hpackage, hm.optional hmissed, rfl⟩
  | none =>
    rw [hpackage] at he
    obtain ⟨place, -, rfl⟩ := List.mem_map.1 he
    refine ⟨rfl, fun _ => FilePath.isNormal_normalize directory place, fun package hsome => ?_⟩
    cases hsome

namespace Ledger

/-! ## Appearance -/

/-- A file where a note looks for one is a change. -/
theorem changedIn_of_target {l : Ledger} {w : World} {packages : Packages} {e : FilePath × Missed}
    (he : e ∈ l.missed) {target : FilePath} (htarget : e.2.target packages w = some target)
    (hfile : w.hasFile target = true) (reference : Instant) :
    l.changedIn w reference packages = true := by
  have hthere : (w.find? target).isSome = true := by
    obtain ⟨node, hnode, -⟩ := (Option.any_eq_true _ _).1 hfile
    rw [hnode]
    rfl
  rw [changedIn, Bool.or_eq_true, List.any_eq_true, List.any_eq_true]
  exact .inr ⟨e, he, by rw [htarget]; exact hthere⟩

/-- A note under a path in normal form looks for the file there. -/
theorem target_of_isNormal {e : FilePath × Missed} (he : e.2.Candid e.1) {path : FilePath}
    (hpath : path.IsNormal) (hsame : e.1.same path = true) (packages : Packages) (w : World) :
    e.2.target packages w = some path := by
  cases hpackage : e.2.package with
  | none =>
    have hkey : e.1 = path := ((he.isNormal hpackage).same_iff hpath).1 hsame
    rw [Missed.target, hpackage, he.path_eq, hkey]
  | some package =>
    -- An entry of a package is no absolute path.
    obtain ⟨entry, hparse, hentry, hoptional, -⟩ := he.parsed package hpackage
    obtain ⟨first, rest, -, hparts⟩ :=
      (IncludeEntry.framed_of_parse hparse hentry hoptional).first
    obtain ⟨names, hnames, rfl⟩ := hpath
    rw [FilePath.same, beq_iff_eq, FilePath.parts_ofNames hnames] at hsame
    have hfirst := (List.cons.inj (hparts.symm.trans hsame)).1
    unfold FilePath.part at hfirst
    split at hfirst
    · cases hfirst
    · cases hfirst

/-- A note under an entry of a package looks for the file in the package, under a spelling of its
path there. -/
theorem target_of_package {e : FilePath × Missed} (he : e.2.Candid e.1) {raw : String}
    {entry : IncludeEntry} {package : String} (hparse : IncludeEntry.parse raw = .ok entry)
    (hentry : entry.package = some package) (hoptional : entry.optional = true)
    (hname : '/' ∉ package.toList) (hsame : e.1.same ⟨raw⟩ = true) :
    ∃ file, e.2.package = some package ∧ e.2.file = some file ∧
      (FilePath.mk entry.path).Respelled file := by
  have hframed := IncludeEntry.framed_of_parse hparse hentry hoptional
  cases hpackage : e.2.package with
  | none =>
    obtain ⟨names, hnames, hkey⟩ := he.isNormal hpackage
    obtain ⟨first, rest, -, hparts⟩ := hframed.first
    rw [FilePath.same, beq_iff_eq, hkey, FilePath.parts_ofNames hnames, hparts] at hsame
    have hfirst := (List.cons.inj hsame).1
    unfold FilePath.part at hfirst
    split at hfirst
    · cases hfirst
    · cases hfirst
  | some package' =>
    obtain ⟨entry', hparse', hentry', hoptional', hfile⟩ := he.parsed package' hpackage
    have hframed' := IncludeEntry.framed_of_parse hparse' hentry' hoptional'
    have hsame' : (FilePath.mk raw).same ⟨e.1.text⟩ = true := (FilePath.same_comm _ _).trans hsame
    obtain rfl := hframed.package_eq hframed' hname hsame'
    refine ⟨_, rfl, hfile, ?_⟩
    rcases hframed.respelled hframed' hname hsame' with rfl | hrespelled
    · cases hparse.symm.trans hparse'
      exact ⟨rfl, rfl, rfl⟩
    · exact hrespelled

/-- A ledger that notes what is missed of an entry changes when the entry can be satisfied, where
the spellings that it has noted are not too long. -/
theorem changedIn_of_found {l : Ledger} (hl : l.Candid) {s : Settings} {m : Meeting} {w w' : World}
    (hm : m.In s w) (hmissed : m.found = none)
    (hnoted : ∀ e ∈ m.misses w.directory, covers l.missed e.1 = true)
    (hname : ∀ package ∈ m.entry.package, '/' ∉ package.toList)
    (hdirectory : w'.directory = w.directory)
    (hfinds : ((s.places w' m.owner m.entry).find? w'.hasFile).isSome = true)
    (hshort : ∀ e ∈ l.missed, e.1.same ⟨m.raw⟩ = true → ∀ package ∈ m.entry.package,
      ∀ dir ∈ s.packages.directoryIn w' package, ∀ file ∈ e.2.file,
        (dir.join file).text.utf8ByteSize < 4096)
    (reference : Instant) : l.changedIn w' reference s.packages = true := by
  obtain ⟨place, hplace⟩ := Option.isSome_iff_exists.1 hfinds
  have hfile : w'.hasFile place = true := List.find?_some hplace
  have hmem : place ∈ s.places w' m.owner m.entry := List.mem_of_find?_eq_some hplace
  have hsearched : m.searched = s.places w m.owner m.entry := congrArg Meeting.searched hm.met
  rw [Meeting.misses, if_neg (by rw [hmissed]; exact Bool.false_ne_true)] at hnoted
  cases hpackage : m.entry.package with
  | some package =>
    rw [hpackage] at hnoted hname
    obtain ⟨e, he, hsame⟩ := covers_iff.1 (hnoted _ List.mem_cons_self)
    obtain ⟨file, hpackage', hfile', hrespelled⟩ := target_of_package (hl e he) hm.parsed hpackage
      (hm.optional hmissed) (hname package rfl) hsame
    rw [Settings.places, hpackage, Option.mem_toList] at hmem
    obtain ⟨dir, hdir, rfl⟩ := Option.map_eq_some_iff.1 hmem
    have htarget : e.2.target s.packages w' = some (dir.join file) := by
      rw [Missed.target, hpackage', hfile']
      dsimp only
      rw [hdir]
      rfl
    refine changedIn_of_target he htarget ?_ reference
    refine World.hasFile_of_respelled (hrespelled.join dir) ?_ hfile
    exact hshort e he hsame package hpackage dir hdir file hfile'
  | none =>
    rw [hpackage] at hnoted
    -- The same places are searched, and the file is there under its normal form too.
    have hsame : s.places w' m.owner m.entry = m.searched := by
      rw [hsearched, Settings.places, Settings.places, hpackage, hdirectory]
    have hthere : w'.hasFile (FilePath.normalize w.directory place) = true := by
      rw [Settings.places, hpackage] at hmem
      dsimp only at hmem
      split at hmem
      next habsolute =>
        obtain rfl := List.mem_singleton.1 hmem
        rw [← hdirectory]
        exact World.hasFile_normalize habsolute hfile
      · obtain ⟨dir, -, rfl⟩ := List.mem_map.1 hmem
        rw [FilePath.normalize_normalize]
        exact hfile
    have hcovered := hnoted _ (List.mem_map.2 ⟨place, hsame ▸ hmem, rfl⟩)
    obtain ⟨e, he, hkey⟩ := covers_iff.1 hcovered
    refine changedIn_of_target he ?_ hthere reference
    exact target_of_isNormal (hl e he) (FilePath.isNormal_normalize _ _) hkey _ _

end Ledger

/-! ## Runs that note what they miss -/

/-- A run that leads from one world to another and from one ledger to another has met some entries.
Of those without a file, the ledger has all notes. -/
structure Heeding (s : Settings) (w w' : World) (met : List Meeting) (l l' : Ledger) : Prop where
  directory : w'.directory = w.directory
  kept : ∀ path, Ledger.covers l.missed path = true → Ledger.covers l'.missed path = true
  noted : ∀ m ∈ met, m.found = none → (∃ w₁ : World, w₁.directory = w.directory ∧ m.In s w₁) ∧
    ∀ e ∈ m.misses w.directory, Ledger.covers l'.missed e.1 = true
  candid : s.cache = none → l.Candid → l'.Candid

namespace Heeding

variable {s : Settings} {w w₁ w' : World} {met met' : List Meeting} {l l₁ l' : Ledger}

/-- A run that meets nothing and leaves the notes as they are. -/
theorem nothing (hdirectory : w'.directory = w.directory) (hmissed : l'.missed = l.missed) :
    Heeding s w w' [] l l' where
  directory := hdirectory
  kept _ h := by rwa [hmissed]
  noted := nofun
  candid _ h := by rwa [Ledger.Candid, hmissed]

theorem trans (h : Heeding s w w₁ met l l₁) (h' : Heeding s w₁ w' met' l₁ l') :
    Heeding s w w' (met ++ met') l l' where
  directory := h'.directory.trans h.directory
  kept path hpath := h'.kept path (h.kept path hpath)
  noted := by
    intro m hm hmissed
    rcases List.mem_append.1 hm with hm | hm
    · obtain ⟨hmet, hnoted⟩ := h.noted m hm hmissed
      exact ⟨hmet, fun e he => h'.kept e.1 (hnoted e he)⟩
    · have hmet := h'.noted m hm hmissed
      rw [h.directory] at hmet
      exact hmet
  candid hcache hl := h'.candid hcache (h.candid hcache hl)

/-- The notes of a ledger may be taken up by another one. -/
theorem update (h : Heeding s w w' met Ledger.empty l') (l : Ledger) :
    Heeding s w w' met l (l.update l') where
  directory := h.directory
  kept path hpath := by
    rw [Ledger.update_eq, Ledger.covers_notes, hpath, Bool.true_or]
  noted m hm hmissed := by
    obtain ⟨hmet, hnoted⟩ := h.noted m hm hmissed
    refine ⟨hmet, fun e he => ?_⟩
    rw [Ledger.update_eq, Ledger.covers_notes, hnoted e he, Bool.or_true]
  candid hcache hl := by
    intro e he
    rcases Ledger.mem_of_mem_notes he with he | he
    · exact hl e he
    · exact h.candid hcache nofun e he

/-- Entries that are met in a world and noted on the spot. -/
theorem meeting {m : Meeting} (hm : m.In s w)
    (hdirectory : w'.directory = w.directory) (l : Ledger) :
    Heeding s w w' [m] l (l.update (accountOf w [m] [])) := by
  have hmisses : (accountOf w [m] []).missed = m.misses w.directory := List.flatMap_singleton _ _
  constructor
  · exact hdirectory
  · intro path hpath
    rw [Ledger.update_eq, Ledger.covers_notes, hpath, Bool.true_or]
  · intro m' hm' hmissed
    rw [List.mem_singleton.1 hm']
    refine ⟨⟨w, rfl, hm⟩, fun e he => ?_⟩
    have hcovers : Ledger.covers (m.misses w.directory) e.1 = true :=
      Ledger.covers_iff.2 ⟨e, he, FilePath.same_refl e.1⟩
    rw [Ledger.update_eq, Ledger.covers_notes, hmisses, hcovers, Bool.or_true]
  · intro _ hl e he
    rcases Ledger.mem_of_mem_notes he with he | he
    · exact hl e he
    · rw [hmisses] at he
      cases hfound : m.found with
      | none => exact Meeting.candid_of_mem_misses hm hfound he
      | some file =>
        rw [Meeting.misses, if_pos (by rw [hfound]; rfl)] at he
        cases he

end Heeding

/-- If the step has a result, the ledger has all notes of what it met. -/
def Heeds (s : Settings) (x : Relating α) : Prop :=
  ∀ ⦃p w a p' w'⦄, outcome (x.plain.run p) w = (.ok (a, p'), w') →
    Heeding s w w' ((x.run p).meets w) p.ledger p'.ledger

/-- If a load has a result, its ledger has all notes of what it met. -/
def HeedsAll (s : Settings) (x : Telling (α × Ledger)) : Prop :=
  ∀ ⦃w a l w'⦄, outcome x.run w = (.ok (a, l), w') →
    Heeding s w w' (x.meets w) Ledger.empty l

namespace Scope

variable {c : Scope InWorld} {heard : FilePath → List FilePath → String → World → List Meeting}

theorem heeds_bind {s : Settings} {x : Relating α} {f : α → Relating β} (hx : Heeds s x)
    (hf : ∀ a, Gives (fun _ => True) x.plain a → Heeds s (f a)) : Heeds s (x >>= f) := by
  intro p w b p' w' hrun
  obtain ⟨a, p₁, w₁, hrun₁, hrun₂⟩ :=
    run_bind_ok (x := x.plain) (f := fun a => (f a).plain) hrun
  have hmeets : ((x >>= f).run p).meets w = (x.run p).meets w ++ ((f a).run p₁).meets w₁ :=
    congrArg _ (Telling.after_of_ok hrun₁ fun r w => ((f r.1).run r.2).meets w)
  rw [hmeets]
  exact (hx hrun₁).trans (hf a ⟨p, w, p₁, w₁, trivial, hrun₁⟩ hrun₂)

theorem heeds_still {s : Settings} {x : Resolving InWorld α} (hx : Still x) :
    Heeds s (Relating.quiet x) := by
  intro p w a p' w' hrun
  change outcome (x.run p) w = _ at hrun
  rcases hx.ends p with ⟨b, p₁, hledger, hends⟩ | ⟨e, hends⟩
  · rw [hends] at hrun
    cases hrun
    exact .nothing rfl (congrArg _ hledger)
  · rw [hends] at hrun
    cases hrun

/-- What is missed is noted. -/
theorem heeds_find (howner : c.owner.IsNormal) {raw : String} {entry : IncludeEntry}
    (hparse : IncludeEntry.parse raw = .ok entry) (location : String) :
    Heeds c.settings (c.tellFind raw entry location) := by
  intro p w found p' w' hrun
  obtain ⟨-, hoptional, rfl, warnings, rfl⟩ := find_ok howner hrun
  have hmet : (c.settings.meeting w c.owner raw entry).In c.settings w := ⟨hparse, rfl, hoptional⟩
  have hdirectory : ({ w with warnings := warnings } : World).directory = w.directory := rfl
  exact Heeding.meeting hmet hdirectory p.ledger

/-- What is noted of an included file is taken up. -/
theorem heeds_include {f : Flattening} {location : String} {merged : Tree} {file : FilePath}
    (hload : HeedsAll c.settings ⟨c.load file c.chain location, heard file c.chain location⟩) :
    Heeds c.settings (c.tellInclude heard f location merged file) := by
  intro p w t p' w' hrun
  change outcome ((c.includeFile f location merged file).run p) w = _ at hrun
  unfold includeFile at hrun
  split at hrun
  · cases hrun
  obtain ⟨⟨tree, ledger⟩, p₁, w₁, hlifted, hrest⟩ := run_bind_ok hrun
  obtain ⟨⟨tree', ledger'⟩, w₂, hloaded, hlift⟩ := outcome_bind_ok hlifted
  cases hlift
  obtain ⟨_, p₂, w₂, hmodify, hrest⟩ := run_bind_ok hrest
  cases hmodify
  dsimp only at hrest
  split at hrest
  · cases hrest
  · cases hrest
    exact (hload hloaded).update p.ledger

/-- If the loads of included files have all notes of what they met, so has a resolution. -/
theorem heeds_compatible (howner : c.owner.IsNormal)
    (hheard : ∀ file chain location, file.IsNormal →
      HeedsAll c.settings ⟨c.load file chain location, heard file chain location⟩) :
    c.Compatible heard fun {_} x => Heeds c.settings x where
  bind hx hf := heeds_bind hx hf
  still hx := heeds_still hx
  find location hparse := heeds_find howner hparse location
  load _ location _ {file} hfile := heeds_include (hheard file c.chain location hfile)

end Scope

namespace Telling

/-- A result comes from one of a first part, and the second meets what it meets after it. -/
theorem bind_ok {x : Telling α} {f : α → Telling β} {w w' : World} {b : β}
    (h : outcome (x >>= f).run w = (.ok b, w')) :
    ∃ a w₁, outcome x.run w = (.ok a, w₁) ∧ outcome (f a).run w₁ = (.ok b, w') ∧
      (x >>= f).meets w = x.meets w ++ (f a).meets w₁ := by
  obtain ⟨a, w₁, hx, hf⟩ := outcome_bind_ok h
  exact ⟨a, w₁, hx, hf, congrArg _ (after_of_ok hx _)⟩

end Telling

/-! ## Loads -/

theorem sameDirectory_writing : Writing fun w w' => w'.directory = w.directory where
  refl _ := rfl
  trans h₁ h₂ := h₂.trans h₁
  memo _ _ := rfl
  warned _ _ := rfl
  nodes _ _ := rfl

/-- Recording a path leaves the notes on missed files alone. -/
theorem missed_of_track {l l' : Ledger} {path : FilePath} {mark : Ledger.Mark}
    {attributes : Named String} {w w' : World}
    (h : outcome (l.track path mark attributes) w = (.ok l', w')) : l'.missed = l.missed := by
  obtain ⟨path, w₁, -, h⟩ := outcome_bind_ok h
  dsimp only at h
  split at h
  · cases h
    rfl
  · cases mark with
    | observed =>
      obtain ⟨record, w₂, -, h⟩ := outcome_bind_ok h
      cases h
      rfl
    | pointer origin =>
      cases h
      rfl
    | missing =>
      cases h
      rfl

/-- Letting a directory stand for other paths leaves the notes on missed files alone. -/
theorem missed_of_collapse {l l' : Ledger} {patterns : List String} {base : FilePath}
    {attributes : Named String} {w w' : World}
    (h : outcome (l.collapse patterns base attributes) w = (.ok (.ok l'), w')) :
    l'.missed = l.missed := by
  obtain ⟨base, w₁, -, h⟩ := outcome_bind_ok h
  split at h
  · cases h
  next records _ =>
    obtain ⟨tracked, w₂, htrack, h⟩ := outcome_bind_ok h
    cases h
    exact (missed_of_track htrack).trans rfl

/-- Keeping a result leaves the notes on missed files alone. -/
theorem missed_of_keep {store : Option (Store × List String)} {paths : List FilePath}
    {what : String} {tree t : Tree} {l l' : Ledger} {w w' : World}
    (h : outcome (Settings.keep store paths what tree l) w = (.ok (t, l'), w')) :
    l'.missed = l.missed := by
  unfold Settings.keep at h
  split at h
  next store keys =>
    obtain ⟨⟨saved, result⟩, w₁, hsave, h⟩ := outcome_bind_ok h
    have hsaved : saved.missed = l.missed := by
      obtain ⟨signed, w₂, hsigned, -⟩ := Store.signed_ends l w
      have hmissed : signed.missed = l.missed := by
        obtain ⟨program, w₃, -, hrest⟩ := outcome_bind_ok hsigned
        split at hrest
        · exact missed_of_track hrest
        · cases hrest
          rfl
      rw [Store.save_eq hsigned] at hsave
      obtain ⟨made, w₃, hmade, -⟩ := outcome_bind_ok hsave
      cases made with
      | error fault =>
        rw [Store.saveSigned_of_fault hmade] at hsave
        cases hsave
        exact hmissed
      | ok _ =>
        rw [Store.saveSigned_of_made hmade] at hsave
        cases hsave
        exact hmissed
    dsimp only at h
    split at h
    · cases h
      exact hsaved
    · obtain ⟨_, w₂, -, h⟩ := outcome_bind_ok h
      cases h
      exact hsaved
  · cases h
    rfl

/-- A load that is followed by a step which has all notes too. -/
theorem HeedsAll.followed_by {s : Settings} {x : Telling (α × Ledger)} (hx : HeedsAll s x)
    {f : α × Ledger → Telling (β × Ledger)}
    (hf : ∀ ⦃a l w b l' w'⦄, outcome (f (a, l)).run w = (.ok (b, l'), w') →
      Heeding s w w' ((f (a, l)).meets w) l l') : HeedsAll s (x >>= f) := by
  intro w b l' w' hrun
  obtain ⟨⟨a, l⟩, w₁, hload, hrest, hmeets⟩ := Telling.bind_ok hrun
  rw [hmeets]
  exact (hx hload).trans (hf hrest)

namespace Settings

variable {s : Settings} {wanted : List (FilePath × String)}

/-- What an answer of the cache notes counts as met. -/
theorem heeding_cached {keys : Option (List String)} {paths : List FilePath} {w w' : World}
    {hit : Option (Tree × Ledger)}
    (h : outcome (s.followCached wanted (s.storeFor? keys) paths).run w = (.ok hit, w')) :
    Heeding s w w' ((s.followCached wanted (s.storeFor? keys) paths).meets w) Ledger.empty
      ((hit.map Prod.snd).getD Ledger.empty) := by
  change outcome (cached (s.storeFor? keys) paths) w = _ at h
  have hdirectory : w'.directory = w.directory :=
    (leaves_cached sameDirectory_writing _ _).related h
  dsimp only [followCached]
  rw [Telling.after_of_ok h]
  cases hit with
  | none => exact .nothing hdirectory rfl
  | some hit =>
    obtain ⟨t, l⟩ := hit
    constructor
    · exact hdirectory
    · exact nofun
    · intro m hm hmissed
      obtain ⟨⟨owner, raw⟩, -, hwanted⟩ := List.mem_filterMap.1 hm
      dsimp only at hwanted
      split at hwanted
      · cases hwanted
      next entry hparse =>
        split at hwanted
        next htest =>
          obtain rfl := Option.some.inj hwanted
          simp only [Bool.and_eq_true, List.all_eq_true] at htest
          obtain ⟨⟨hoptional, -⟩, hcovers⟩ := htest
          rw [hdirectory] at hcovers
          exact ⟨⟨w', hdirectory, hparse, rfl, fun _ => hoptional⟩, hcovers⟩
        · cases hwanted
    · intro hcache
      rw [storeFor?, store?, hcache] at h
      cases h

theorem heeds_resolve {load : FilePath → List FilePath → String →
      ExceptT Error InWorld (Tree × Ledger)}
    {heard : FilePath → List FilePath → String → World → List Meeting} {request : Request}
    (hpath : request.path.IsNormal) (hheard : ∀ file chain location, file.IsNormal →
      HeedsAll s ⟨load file chain location, heard file chain location⟩) (document : Tree) :
    HeedsAll s (s.tellResolve load heard request document) := by
  intro w t l w' hrun
  generalize hmet : (s.tellResolve load heard request document).meets w = met
  rw [tellResolve] at hrun hmet
  obtain ⟨room, w₁, hroom, hrun, hmeets⟩ := Telling.quiet_bind_ok hrun
  have hcompatible : (s.scope load request room).Compatible heard fun {_} x => Heeds s x :=
    Scope.heeds_compatible hpath hheard
  cases hroom
  rw [hmeets] at hmet
  dsimp only at hrun hmet
  obtain ⟨⟨tree, progress⟩, w₂, hdocument, hdone, hmeets⟩ := Telling.bind_quiet_ok
    (f := fun r : Tree × Progress => pure (r.1, r.2.ledger)) hrun
  cases hdone
  obtain rfl := hmeets.symm.trans hmet
  exact hcompatible.document _ _ document hdocument

theorem heeds_file (budget : Nat) (request : Request) (hpath : request.path.IsNormal) :
    HeedsAll s (s.followFile wanted budget request) := by
  induction budget generalizing request with
  | zero =>
    intro w t l w' hrun
    cases hrun
  | succ budget ih =>
    intro w t l w' hrun
    generalize hmet : (s.followFile wanted (budget + 1) request).meets w = met
    rw [followFile] at hrun hmet
    obtain ⟨hit, w₁, hcached, hrun, hmeets⟩ := Telling.bind_ok hrun
    have hasked := heeding_cached hcached
    rw [hmeets] at hmet
    cases hit with
    | some hit =>
      cases hrun
      subst hmet
      exact hasked.trans (.nothing rfl rfl)
    | none =>
      obtain ⟨document, w₂, hdocument, hrun, hmeets⟩ := Telling.quiet_bind_ok hrun
      dsimp only at hmet
      rw [hmeets] at hmet
      cases document with
      | none => cases hrun
      | some document =>
        obtain ⟨ledger, w₃, hadd, hrun, hmeets⟩ := Telling.quiet_bind_ok hrun
        dsimp only at hmet
        rw [hmeets] at hmet
        obtain ⟨⟨tree, consulted⟩, w₄, hresolve, hkeep, hmeets⟩ := Telling.bind_quiet_ok
          (f := fun r : Tree × Ledger => keep (s.storeFor? request.cacheKeys) [request.path]
            request.path.text (withPath request.pathField request.path r.1)
            (ledger.update r.2)) hrun
        rw [hmeets] at hmet
        have hread : Heeding s w₁ w₃ [] Ledger.empty ledger := by
          have hdirectory : w₂.directory = w₁.directory := by
            have hworld : (w₁.document request.path).2 = w₂ := congrArg Prod.snd hdocument
            rw [← hworld]
            rfl
          have hadded := (leaves_add sameDirectory_writing.toNoting _ _).related hadd
          exact .nothing (hadded.trans hdirectory) (missed_of_track hadd)
        have hincluded : ∀ file chain location, file.IsNormal → HeedsAll s
            ⟨s.loadFile budget (s.includedRequest request.pathField file chain location),
              (s.followFile wanted budget
                (s.includedRequest request.pathField file chain location)).meets⟩ := by
          intro file chain location hfile
          have hfollowed : (s.followFile wanted budget
              (s.includedRequest request.pathField file chain location)).run = _ :=
            followFile_run _ _
          rw [← hfollowed]
          exact ih _ hfile
        have hresolved := (heeds_resolve hpath hincluded document hresolve).update ledger
        have hkept : Heeding s w₄ w' [] (ledger.update consulted) l :=
          .nothing ((leaves_keep sameDirectory_writing _ _ _ _ _).related hkeep)
            (missed_of_keep hkeep)
        have hall := hasked.trans ((hread.trans hresolved).trans hkept)
        rw [List.nil_append, List.append_nil, hmet] at hall
        exact hall

theorem heeds_load (path : FilePath) (o : LoadOptions) :
    HeedsAll s (s.followLoad wanted path o) := by
  intro w t l w' hrun
  generalize hmet : (s.followLoad wanted path o).meets w = met
  rw [followLoad] at hrun hmet
  obtain ⟨file, w₁, hfile, hrun, hmeets⟩ := Telling.quiet_bind_ok hrun
  cases hfile
  rw [hmeets] at hmet
  obtain ⟨bound, w₁, hbound, hrun, hmeets⟩ := Telling.quiet_bind_ok hrun
  cases hbound
  rw [hmeets] at hmet
  subst hmet
  exact heeds_file _ _ (FilePath.isNormal_normalize w.directory path) hrun

theorem heeds_resolution (document : Tree) (owner : FilePath) (o : LoadOptions) :
    HeedsAll s (s.followResolve wanted document owner o) := by
  intro w t l w' hrun
  generalize hmet : (s.followResolve wanted document owner o).meets w = met
  rw [followResolve] at hrun hmet
  obtain ⟨file, w₁, hfile, hrun, hmeets⟩ := Telling.quiet_bind_ok hrun
  cases hfile
  rw [hmeets] at hmet
  obtain ⟨budget, w₁, hbound, hrun, hmeets⟩ := Telling.quiet_bind_ok hrun
  cases hbound
  rw [hmeets] at hmet
  subst hmet
  refine heeds_resolve (FilePath.isNormal_normalize w.directory owner) ?_ document hrun
  intro file chain location hfile
  have hfollowed : (s.followFile wanted w.nodes.length
      (s.includedRequest o.pathField file chain location)).run = _ := followFile_run _ _
  rw [← hfollowed]
  exact heeds_file _ _ hfile

theorem heeds_section (o : NestedOptions) (file : FilePath) :
    HeedsAll s (s.followSection wanted o file) := by
  refine (heeds_load file o.forFile).followed_by fun tree l w result l' w' hrun => ?_
  dsimp only at hrun ⊢
  cases hschema : o.schema with
  | none =>
    rw [hschema] at hrun
    cases hrun
    exact .nothing rfl rfl
  | some schema =>
    rw [hschema] at hrun
    dsimp only at hrun ⊢
    cases happly : schema.apply tree with
    | error mismatch =>
      rw [happly] at hrun
      cases hrun
    | ok checked =>
      rw [happly] at hrun
      cases hrun
      exact .nothing rfl rfl

theorem heeds_assembly (o : NestedOptions) (sections : List FileSection) (l : Ledger)
    (files : List FilePath) ⦃w w' : World⦄ ⦃assembled : List FileSection⦄ ⦃l' : Ledger⦄
    (h : outcome (s.followAssembly wanted o sections l files).run w = (.ok (assembled, l'), w')) :
    Heeding s w w' ((s.followAssembly wanted o sections l files).meets w) l l' := by
  induction files generalizing sections l w with
  | nil =>
    cases h
    exact .nothing rfl rfl
  | cons file rest ih =>
    generalize hmet : (s.followAssembly wanted o sections l (file :: rest)).meets w = met
    rw [followAssembly] at h hmet
    obtain ⟨⟨new, consulted⟩, w₁, hsection, h, hmeets⟩ := Telling.bind_ok h
    rw [hmeets] at hmet
    dsimp only at h hmet
    have htaken := (heeds_section o file hsection).update l
    rw [← hmet]
    cases hold : sections.find? (·.name == new.name) with
    | none =>
      rw [hold] at h
      exact htaken.trans (ih _ _ h)
    | some old =>
      rw [hold] at h
      obtain ⟨_, w₂, hwarn, hrest, hmeets⟩ := Telling.quiet_bind_ok h
      have hwarned : Heeding s w₁ w₂ [] (l.update consulted) (l.update consulted) :=
        .nothing ((leaves_warn sameDirectory_writing.toNoting _).related hwarn) rfl
      dsimp only
      rw [hmeets]
      exact htaken.trans (hwarned.trans (ih _ _ hrest))

theorem heeds_nested (files : List FilePath) (o : NestedOptions) :
    HeedsAll s (s.followNested wanted files o) := by
  intro w t l w' hrun
  generalize hmet : (s.followNested wanted files o).meets w = met
  rw [followNested] at hrun hmet
  obtain ⟨files, w₁, hnormalize, hrun, hmeets⟩ := Telling.quiet_bind_ok hrun
  rw [hmeets] at hmet
  have hdirectory : w₁.directory = w.directory :=
    (leaves_mapM_normalize sameDirectory_writing _).related hnormalize
  have hnormal : Heeding s w w₁ [] Ledger.empty Ledger.empty := .nothing hdirectory rfl
  obtain ⟨hit, w₂, hcached, hrun, hmeets⟩ := Telling.bind_ok hrun
  rw [hmeets] at hmet
  have hasked := hnormal.trans (heeding_cached hcached)
  cases hit with
  | some hit =>
    cases hrun
    subst hmet
    exact hasked.trans (.nothing rfl rfl)
  | none =>
    dsimp only at hrun hmet
    obtain ⟨⟨sections, ledger⟩, w₃, hassembly, hkeep, hmeets⟩ := Telling.bind_quiet_ok
      (f := fun r : List FileSection × Ledger => keep (s.storeFor? (s.nestedKeys? o)) files
        ("nested load of " ++ toString files.length ++ " file(s)") (sectionsTree r.1) r.2) hrun
    have hassembled := hasked.trans (heeds_assembly o [] Ledger.empty files hassembly)
    have hkept : Heeding s w₃ w' [] ledger l :=
      .nothing ((leaves_keep sameDirectory_writing _ _ _ _ _).related hkeep) (missed_of_keep hkeep)
    have hall := hassembled.trans hkept
    rw [List.append_nil] at hall
    rw [← hmet, hmeets]
    exact hall

theorem heeds_pattern (pattern : String) (o : NestedOptions) :
    HeedsAll s (s.followPattern wanted pattern o) := by
  intro w t l w' hrun
  generalize hmet : (s.followPattern wanted pattern o).meets w = met
  rw [followPattern] at hrun hmet
  obtain ⟨here, w₁, hhere, hrun, hmeets⟩ := Telling.quiet_bind_ok hrun
  cases hhere
  rw [hmeets] at hmet
  dsimp only at hrun hmet
  obtain ⟨files, w₁, hfiles, hrun, hmeets⟩ := Telling.quiet_bind_ok hrun
  rw [hmeets] at hmet
  have hdirectory : w₁.directory = w.directory :=
    (Glob.leaves_files sameDirectory_writing.toNoting _).related hfiles
  have hexpanded : Heeding s w w₁ [] Ledger.empty Ledger.empty := .nothing hdirectory rfl
  cases files with
  | error fault => cases hrun
  | ok files =>
    dsimp only at hrun hmet
    subst hmet
    refine hexpanded.trans ((heeds_nested files o).followed_by ?_ hrun)
    intro tree l w t l' w' hrun
    generalize hmet : Telling.meets _ w = met
    obtain ⟨collapsed, w₁, hcollapse, hrun, hmeets⟩ := Telling.quiet_bind_ok hrun
    rw [hmeets] at hmet
    cases collapsed with
    | error fault => cases hrun
    | ok collapsed =>
      cases hrun
      subst hmet
      have hleft := (leaves_collapse sameDirectory_writing.toNoting _ _ _ _).related hcollapse
      exact .nothing hleft (missed_of_collapse hcollapse)

/-- Whatever a loader does, its ledger has all notes of what was missed. -/
theorem heeds_follow (task : Task) : HeedsAll s (s.follow wanted task) := by
  cases task with
  | load path o => exact heeds_load path o
  | resolve document owner o => exact heeds_resolution document owner o
  | nested files o => exact heeds_nested files o
  | pattern pattern o => exact heeds_pattern pattern o

/-! ## What can be satisfied is noticed -/

/-- Whatever a loader has done, an entry that it could not satisfy is noticed once a file can be
found for it. In answers of the cache the notes have to be such as loads make. Where an entry of a
package was noted in another spelling, the path to look at must not be too long for the system. -/
theorem missed_entry_is_noticed {task : Task} {w w' later : World} {t : Tree} {l : Ledger}
    (hdone : outcome (s.perform task) w = (.ok (t, l), w'))
    (hcandid : s.cache = none ∨ l.Candid) {m : Meeting} (hm : m ∈ (s.follow wanted task).meets w)
    (hmissed : m.found = none) (hname : ∀ package ∈ m.entry.package, '/' ∉ package.toList)
    (hdirectory : later.directory = w.directory) {c : Scope InWorld} (hsettings : c.settings = s)
    (howner : c.owner = m.owner) {location : String} {p p' : Progress} {file : FilePath}
    {after : World}
    (hfinds : outcome ((c.find m.raw m.entry location).run p) later = (.ok (some file, p'), after))
    (hshort : ∀ e ∈ l.missed, e.1.same ⟨m.raw⟩ = true → ∀ package ∈ m.entry.package,
      ∀ dir ∈ s.packages.directoryIn later package, ∀ noted ∈ e.2.file,
        (dir.join noted).text.utf8ByteSize < 4096)
    (reference : Instant) :
    outcome (l.hasChanged reference s.packages : ExceptT Error InWorld Bool) later =
      (.ok true, later) := by
  have hrun : outcome (s.follow wanted task).run w = (.ok (t, l), w') := by
    rw [follow_run]
    exact hdone
  have hheeding := heeds_follow task hrun
  have hl : l.Candid := hcandid.elim (fun hcache => hheeding.candid hcache nofun) id
  obtain ⟨⟨w₁, hw₁, hmet⟩, hnoted⟩ := hheeding.noted m hm hmissed
  rw [← hw₁] at hnoted hdirectory
  have hplace : ((s.places later m.owner m.entry).find? later.hasFile).isSome = true := by
    have hfound := Scope.found_of_find hfinds
    rw [hsettings, howner] at hfound
    rw [← Option.isSome_map, ← hfound]
    rfl
  have hchanged := Ledger.changedIn_of_found hl hmet hmissed hnoted hname hdirectory hplace hshort
    reference
  rw [hasChanged_run, hchanged]

/-- A loader that knows a package. -/
def knowing (dir : FilePath) : Settings :=
  { Settings.default with packages := Packages.none.register "p" dir }

/-- The search for what a file includes. -/
def searching (s : Settings) : Scope InWorld :=
  { owner := ⟨"/root.yml"⟩
    chain := []
    includes := true
    settings := s
    room := 0
    load := fun path _ location => throw (.unresolved path location .unbounded) }

/-- A world with a file that includes a file of the package in two spellings. -/
def spelledTwice (spelling : String) (files : List (Place × Node)) : World :=
  including ("'(p)" ++ spelling ++ "[optional]', '(p)a/b.yml[optional]'") files

/-- The file of the package. -/
def packed : List (Place × Node) :=
  [(["pk"], .directory ⟨0⟩), (["pk", "a"], .directory ⟨0⟩), (["pk", "a", "b.yml"], .file ⟨#[]⟩ ⟨0⟩)]

/-- The second entry, whose file cannot be found before the package is there. -/
def secondSpelling : Meeting :=
  ⟨⟨"/root.yml"⟩, "(p)a/b.yml[optional]", ⟨"a/b.yml", some "p", true, false⟩, [], none⟩

/-- The note on the first entry. -/
def firstNote (spelling : String) : FilePath × Missed :=
  (⟨"(p)" ++ spelling ++ "[optional]"⟩, ⟨⟨"(p)" ++ spelling ++ "[optional]"⟩, ⟨"/root.yml"⟩,
    some "p", some ⟨spelling⟩⟩)

/-- The second entry is not noted beside the first one, and is noticed all the same. -/
theorem second_spelling_is_noticed :
    ∃ t l w', outcome ((knowing ⟨"pk"⟩).perform (loadRoot true)) (spelledTwice "a/./b.yml" []) =
        (.ok (t, l), w') ∧
      l.missed = [firstNote "a/./b.yml"] ∧
      ∀ reference, outcome (l.hasChanged reference (knowing ⟨"pk"⟩).packages :
        ExceptT Error InWorld Bool) (spelledTwice "a/./b.yml" packed) =
          (.ok true, spelledTwice "a/./b.yml" packed) := by
  have hload : succeeds ((knowing ⟨"pk"⟩).perform (loadRoot true)) (spelledTwice "a/./b.yml" [])
      (fun r _ => r.2.missed = [firstNote "a/./b.yml"]) = true := by
    decide +kernel
  have hmet : secondSpelling ∈
      ((knowing ⟨"pk"⟩).follow [] (loadRoot true)).meets (spelledTwice "a/./b.yml" []) := by
    decide +kernel
  have hfind : succeeds (((searching (knowing ⟨"pk"⟩)).find secondSpelling.raw secondSpelling.entry
      "").run ⟨none, Ledger.empty⟩) (spelledTwice "a/./b.yml" packed)
      (fun r _ => r.1 = some ⟨"/pk/a/b.yml"⟩) = true := by
    decide +kernel
  obtain ⟨⟨t, l⟩, w', hdone, htest⟩ := succeeds_iff.1 hload
  have hmissed : l.missed = [firstNote "a/./b.yml"] := of_decide_eq_true htest
  obtain ⟨⟨found, p'⟩, after, hfinds, htest⟩ := succeeds_iff.1 hfind
  obtain rfl : found = some ⟨"/pk/a/b.yml"⟩ := of_decide_eq_true htest
  refine ⟨t, l, w', hdone, hmissed, fun reference => ?_⟩
  have hname : ∀ package ∈ secondSpelling.entry.package, '/' ∉ package.toList := by
    rintro _ ⟨rfl⟩
    decide
  have hdirectory : (spelledTwice "a/./b.yml" packed).directory =
      (spelledTwice "a/./b.yml" []).directory := rfl
  refine missed_entry_is_noticed hdone (.inl rfl) hmet rfl hname hdirectory rfl rfl hfinds ?_
    reference
  rw [hmissed]
  intro e he _ package hpackage dir hdir noted hnoted
  obtain rfl := List.mem_singleton.1 he
  have hlies : (knowing ⟨"pk"⟩).packages.directoryIn (spelledTwice "a/./b.yml" packed) "p" =
      some ⟨"pk"⟩ := by decide +kernel
  cases hpackage
  cases hlies.symm.trans hdir
  cases hnoted
  decide

/-! ## A spelling that is too long -/

/-- A world in which the file of a package is included in two spellings, without the package. -/
def bare : World := spelledTwice "a////////////////////b.yml" []

/-- The world with the package. -/
def furnished : World := spelledTwice "a////////////////////b.yml" packed

/-- A spelling of the directory of the package with many slashes. -/
def stretched (n : Nat) : FilePath :=
  FilePath.join ⟨"." ++ String.ofList (List.replicate n '/')⟩ ⟨"pk"⟩

theorem utf8ByteSize_slashes (n : Nat) :
    ("." ++ String.ofList (List.replicate n '/')).utf8ByteSize = n + 1 := by
  rw [String.utf8ByteSize_append]
  have hslashes : (String.ofList (List.replicate n '/')).utf8ByteSize = n := by
    induction n with
    | zero => rfl
    | succ n ih =>
      rw [List.replicate_succ, String.ofList_cons, String.utf8ByteSize_append, ih]
      exact Nat.add_comm 1 n
  rw [hslashes]
  exact Nat.add_comm 1 n

theorem pieces_slashes (n : Nat) :
    (FilePath.mk ("." ++ String.ofList (List.replicate n '/'))).pieces =
      ['.'] :: List.replicate n [] := by
  have hslashes : Text.splitAt (· == '/') (List.replicate n '/') = [] :: List.replicate n [] := by
    induction n with
    | zero => rfl
    | succ n ih =>
      rw [List.replicate_succ, Text.splitAt, if_pos (beq_self_eq_true '/'), ih]
      rfl
  rw [← String.toList_ofList (l := List.replicate n '/')] at hslashes
  rw [FilePath.pieces, String.toList_append]
  exact Text.splitAt_append (by decide) hslashes

theorem respelled_stretched (n : Nat) : (FilePath.mk "pk").Respelled (stretched n) := by
  refine FilePath.respelled_join ?_ ?_ rfl
  · rw [pieces_slashes]
    intro piece hpiece
    rcases List.mem_cons.1 hpiece with rfl | hpiece
    · rfl
    · rw [List.eq_of_mem_replicate hpiece]
      rfl
  · rw [FilePath.isAbsolute, String.toList_append]
    rfl

/-- How long paths in the directory are. -/
theorem utf8ByteSize_stretched (n : Nat) :
    (stretched n).text.utf8ByteSize ≤ n + 4 ∧
      ∀ file : FilePath, file.isAbsolute = false →
        n + 3 + file.text.utf8ByteSize ≤ ((stretched n).join file).text.utf8ByteSize ∧
        ((stretched n).join file).text.utf8ByteSize ≤ n + 5 + file.text.utf8ByteSize := by
  have hslashes := utf8ByteSize_slashes n
  have hname : "pk".utf8ByteSize = 2 := by decide
  have hdir : _ ≤ (stretched n).text.utf8ByteSize ∧ (stretched n).text.utf8ByteSize ≤ _ :=
    FilePath.utf8ByteSize_join _ rfl
  dsimp only at hdir
  refine ⟨by omega, fun file hfile => ?_⟩
  have hfile := FilePath.utf8ByteSize_join (stretched n) hfile
  omega

theorem directoryIn_knowing (dir : FilePath) (w : World) (name : String) :
    (knowing dir).packages.directoryIn w name =
      if name = "p" then [dir].find? w.hasDirectory else none := by
  have hregistered : (knowing dir).packages.registered.get? name =
      if name = "p" then some dir else none := by
    change (List.find? (·.1 == name) [("p", dir)]).map Prod.snd = _
    rw [List.find?_cons]
    by_cases hname : name = "p"
    · rw [if_pos hname, hname]
      rfl
    · rw [if_neg hname, beq_false_of_ne (Ne.symm hname)]
      rfl
  rw [Packages.directoryIn, hregistered]
  split
  next hname =>
    split at hname
    next hp =>
      cases hname
      rw [if_pos hp]
    · cases hname
  next hname =>
    split at hname
    · cases hname
    next hp =>
      rw [if_neg hp]
      rfl

section Hidden

variable {dir : FilePath} (hsame : (FilePath.mk "pk").Respelled dir)
include hsame

/-- Before the package is there, it does not matter how its directory is spelled. -/
theorem alike_knowing (task : Task) :
    Alike (SameFiles bare) (fun _ => True)
      ((knowing ⟨"pk"⟩).follow [] task) ((knowing dir).follow [] task) := by
  have hpk : bare.hasDirectory ⟨"pk"⟩ = false := by
    decide +kernel
  have hdir : bare.hasDirectory dir = false := by
    rw [Bool.eq_false_iff]
    intro hthere
    have hlast : ∀ piece ∈ dir.pieces.getLast?, FilePath.isIdle piece = false := by
      rw [← hsame.last]
      decide
    rw [World.hasDirectory_of_respelled hsame.symm hlast (by decide) hthere] at hpk
    cases hpk
  refine alike_of_places (SameFiles.unnoted _) ?_ rfl rfl task
  intro w hw owner entry
  rw [hw.places_eq, hw.places_eq, places, places]
  cases entry.package with
  | none => rfl
  | some package =>
    dsimp only
    rw [directoryIn_knowing, directoryIn_knowing, List.find?_cons, List.find?_cons, hpk, hdir]

/-- The file of the package is found, but not where the ledger looks for it. -/
theorem hidden_of_respelled (hshort : dir.text.utf8ByteSize < 4096)
    (hfound : (dir.join ⟨"a/b.yml"⟩).text.utf8ByteSize < 4096)
    (hlong : 4096 ≤ (dir.join ⟨"a////////////////////b.yml"⟩).text.utf8ByteSize) :
    ∃ t l w', outcome ((knowing dir).perform (loadRoot true))
        bare = (.ok (t, l), w') ∧
      secondSpelling ∈ ((knowing dir).follow [] (loadRoot true)).meets
        bare ∧
      (∃ file p' after, outcome (((searching (knowing dir)).find secondSpelling.raw
        secondSpelling.entry "").run ⟨none, Ledger.empty⟩)
          furnished = (.ok (some file, p'), after)) ∧
      outcome (l.hasChanged ⟨5⟩ (knowing dir).packages : ExceptT Error InWorld Bool)
        furnished =
          (.ok false, furnished) := by
  obtain ⟨hrun, hmeets, -⟩ := alike_knowing hsame (loadRoot true) _ (.refl _)
    fun _ _ => trivial
  rw [follow_run, follow_run] at hrun
  have hload : succeeds ((knowing ⟨"pk"⟩).perform (loadRoot true))
      bare (fun r _ =>
        r.2.missed = [firstNote "a////////////////////b.yml"] ∧
        ∀ e ∈ r.2.records, e.2.staleIn furnished
          (Instant.epochSeconds ⟨5⟩) e.1 = false) = true := by
    decide +kernel
  have hmet : secondSpelling ∈ ((knowing ⟨"pk"⟩).follow [] (loadRoot true)).meets
      bare := by
    decide +kernel
  obtain ⟨⟨t, l⟩, w', hdone, htest⟩ := succeeds_iff.1 hload
  obtain ⟨hmissed, hfresh⟩ := of_decide_eq_true htest
  have hdir : furnished.hasDirectory dir = true :=
    World.hasDirectory_of_respelled hsame (by decide) hshort (by decide +kernel)
  have hfile : furnished.hasFile
      (dir.join ⟨"a/b.yml"⟩) = true :=
    World.hasFile_of_respelled (hsame.join_left rfl) hfound (by decide +kernel)
  have hlies : (knowing dir).packages.directoryIn
      furnished "p" = some dir := by
    rw [directoryIn_knowing, if_pos rfl, List.find?_cons, hdir]
  have hfinds : ∃ file p' after, outcome (((searching (knowing dir)).find secondSpelling.raw
        secondSpelling.entry "").run ⟨none, Ledger.empty⟩)
          furnished = (.ok (some file, p'), after) := by
    have hplaces : (knowing dir).places furnished ⟨"/root.yml"⟩ secondSpelling.entry =
        [dir.join ⟨"a/b.yml"⟩] := by
      change (Option.map _ ((knowing dir).packages.directoryIn furnished "p")).toList = _
      rw [hlies]
      rfl
    have hsearched : outcome (((searching (knowing dir)).candidates secondSpelling.entry).run
        ⟨none, Ledger.empty⟩) furnished =
          (.ok ((knowing dir).places furnished ⟨"/root.yml"⟩ secondSpelling.entry, _), _) :=
      Scope.candidates_run _ _ _
    have hfirst : outcome _ furnished = _ :=
      Scope.firstFile_run [dir.join ⟨"a/b.yml"⟩] ⟨none, Ledger.empty⟩ furnished
    rw [hplaces] at hsearched
    rw [List.find?_cons, hfile] at hfirst
    rw [Scope.find, StateT.run_bind, outcome_bind_of_ok hsearched, StateT.run_bind,
      outcome_bind_of_ok hfirst]
    exact ⟨_, _, _, rfl⟩
  have hunchanged : l.changedIn furnished ⟨5⟩ (knowing dir).packages = false := by
    refine Ledger.changedIn_eq_false.2 ⟨hfresh, ?_⟩
    rw [hmissed]
    intro e he target htarget
    obtain rfl := List.mem_singleton.1 he
    change Option.map _ ((knowing dir).packages.directoryIn furnished "p") = _ at htarget
    rw [hlies] at htarget
    cases htarget
    exact World.find?_of_long hlong
  refine ⟨t, l, w', hrun.trans hdone, ?_, hfinds, ?_⟩
  · rw [hmeets]
    exact hmet
  · rw [hasChanged_run, hunchanged]

end Hidden

/-- A file that can be found for an entry which was missed need not be noticed. -/
theorem long_spelling_is_unnoticed :
    ∃ t l w', outcome ((knowing (stretched 4070)).perform (loadRoot true)) bare =
        (.ok (t, l), w') ∧
      (knowing (stretched 4070)).cache = none ∧
      (∃ m ∈ ((knowing (stretched 4070)).follow [] (loadRoot true)).meets bare,
        m.found = none ∧ m.entry.optional = true ∧
        (∀ package ∈ m.entry.package, '/' ∉ package.toList) ∧
        (searching (knowing (stretched 4070))).owner = m.owner ∧
        ∃ file p' after, outcome (((searching (knowing (stretched 4070))).find m.raw m.entry "").run
          ⟨none, Ledger.empty⟩) furnished = (.ok (some file, p'), after)) ∧
      furnished.directory = bare.directory ∧
      outcome (l.hasChanged ⟨5⟩ (knowing (stretched 4070)).packages : ExceptT Error InWorld Bool)
        furnished = (.ok false, furnished) := by
  obtain ⟨hdir, hfile⟩ := utf8ByteSize_stretched 4070
  have hshort := (hfile ⟨"a/b.yml"⟩ rfl).2
  have hlong := (hfile ⟨"a////////////////////b.yml"⟩ rfl).1
  obtain ⟨t, l, w', hdone, hmet, hfinds, hchanged⟩ := hidden_of_respelled (respelled_stretched 4070)
    (Nat.lt_of_le_of_lt hdir (by decide)) (Nat.lt_of_le_of_lt hshort (by decide))
    (Nat.le_trans (by decide) hlong)
  refine ⟨t, l, w', hdone, rfl, ⟨secondSpelling, hmet, rfl, rfl, ?_, rfl, hfinds⟩, rfl, hchanged⟩
  rintro _ ⟨rfl⟩
  decide

end Settings

end LayeredConfig
