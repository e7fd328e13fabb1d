import LayeredConfig.Proofs.Outside
import LayeredConfig.Proofs.Cache.Answer

/-!
# What saving a result does

Saving a result in a cache that is there, as a function of the world (`stored`): an envelope is
written beside its place and moved there. Neither this nor looking up a request changes anything but
files of the cache.
-/

namespace LayeredConfig

/-- Nothing but the notes on version control and the warnings has changed. -/
def Noted (w w' : World) : Prop :=
  ∃ memo warnings, w' = { w with gitMemo := memo, warnings := warnings }

theorem noted_noting : Noting Noted where
  refl w := ⟨w.gitMemo, w.warnings, rfl⟩
  trans := by
    rintro w₁ _ _ ⟨memo, warnings, rfl⟩ ⟨memo', warnings', rfl⟩
    exact ⟨memo', warnings', rfl⟩
  memo w memo := ⟨memo, w.warnings, rfl⟩
  warned w warnings := ⟨w.gitMemo, warnings, rfl⟩

namespace Noted

variable {w w' : World}

theorem sameFiles (h : Noted w w') : SameFiles w w' := by
  obtain ⟨memo, warnings, rfl⟩ := h
  exact ⟨rfl, rfl, rfl⟩

theorem sameOutside (h : Noted w w') (S : Place → Prop) : SameOutside S w w' := by
  refine .of_sameFiles h.sameFiles ?_
  obtain ⟨memo, warnings, rfl⟩ := h
  rfl

end Noted

/-! ## Names of entries -/

theorem FilePath.plain_of_ending {name : String} {c : Char} (hdot : c ≠ '.')
    (hend : name.toList.getLast? = some c) (hslash : '/' ∉ name.toList) : Plain name where
  nonempty h := by simp [h] at hend
  here h := hdot (by simpa [h] using hend.symm)
  up h := hdot (by simpa [h] using hend.symm)
  slash := hslash

namespace Cache

theorem slash_notMem_hexByte (b : UInt8) : '/' ∉ Sha256.hexByte b := by
  have hdigit : ∀ n < 16, Nat.digitChar n ≠ '/' := by decide
  have hb := b.toNat_lt
  simp only [Sha256.hexByte, List.mem_cons, List.not_mem_nil, or_false, not_or]
  exact ⟨(hdigit _ (by omega)).symm, (hdigit _ (by omega)).symm⟩

theorem slash_notMem_key (directory : FilePath) (paths : List FilePath) (settings : List String) :
    '/' ∉ (key directory paths settings).toList := by
  rw [key, Sha256.hex, String.toList_ofList]
  intro h
  obtain ⟨b, -, hb⟩ := List.mem_flatMap.1 h
  exact slash_notMem_hexByte b hb

/-- The name of an entry's file is a plain name. -/
theorem plain_entryName (directory : FilePath) (paths : List FilePath) (settings : List String) :
    FilePath.Plain (key directory paths settings ++ ".yml") := by
  refine FilePath.plain_of_ending (c := 'l') (by decide) ?_ ?_
  · rw [String.toList_append, List.getLast?_append_of_ne_nil _ (by decide)]
    rfl
  · rw [String.toList_append, List.mem_append, not_or]
    exact ⟨slash_notMem_key _ _ _, by decide⟩

/-- So is the name of the file an entry is written to first. -/
theorem plain_stagingName (directory : FilePath) (paths : List FilePath) (settings : List String)
    {token : String} (htoken : '/' ∉ token.toList) :
    FilePath.Plain ("." ++ key directory paths settings ++ "." ++ token ++ ".tmp") := by
  refine FilePath.plain_of_ending (c := 'p') (by decide) ?_ ?_
  · rw [String.toList_append, List.getLast?_append_of_ne_nil _ (by decide)]
    rfl
  · simp only [String.toList_append, List.mem_append, not_or]
    exact ⟨⟨⟨⟨by decide, slash_notMem_key _ _ _⟩, by decide⟩, htoken⟩, by decide⟩

end Cache

/-! ## Making directories -/

/-- Where something is already, no directory is made. -/
theorem makeDirectories_run {w : World} {p : FilePath} {node : Node} (h : w.find? p = some node) :
    outcome (Host.makeDirectories p : ExceptT Error InWorld _) w =
      (.ok (if node.isDirectory then .ok () else .error .exists), w) := by
  obtain ⟨place, hlocate⟩ : ∃ place, w.locate p = .ok (place, some node) := by
    rw [World.find?] at h
    split at h
    next place _ hlocate => exact ⟨place, h ▸ hlocate⟩
    · cases h
  have hmade : outcome (Host.makeDirectory p : ExceptT Error InWorld _) w =
      (.ok (.error .exists), w) := by
    change (Except.ok (w.makeDirectory p).1, (w.makeDirectory p).2) = _
    rw [World.makeDirectory, hlocate]
  have hdirectory : w.hasDirectory p = node.isDirectory := by
    rw [World.hasDirectory, h, Option.any_some]
  rw [Host.makeDirectories, Host.makeDirectoriesWithin,
    if_neg (by simpa using (World.walk_of_locate hlocate).1), outcome_bind_of_ok hmade]
  dsimp only
  rw [Host.orThere, outcome_bind_of_ok (isDirectory_run w p), hdirectory]
  split <;> rfl

theorem mapM_normalize_run (paths : List FilePath) (w : World) :
    outcome (paths.mapM Host.normalize : ExceptT Error InWorld _) w =
      (.ok (paths.map (FilePath.normalize w.directory)), w) := by
  induction paths with
  | nil => rfl
  | cons p rest ih =>
    have hp : outcome (Host.normalize p : ExceptT Error InWorld _) w =
        (.ok (FilePath.normalize w.directory p), w) := rfl
    rw [List.mapM_cons, outcome_bind_of_ok hp, outcome_bind_of_ok ih]
    rfl

/-! ## Saving -/

namespace Store

/-- The file an entry is written to first. -/
def staging (s : Store) (w : World) (key : String) : FilePath :=
  s.root.join ⟨"." ++ key ++ "." ++ w.token ++ ".tmp"⟩

/-- Write a file beside its place and move it there. -/
def replaced (s : Store) (w : World) (key text : String) : Except SystemFault Unit × World :=
  match w.write (s.staging w key) text.toUTF8 with
  | (.error fault, w') => (.error fault, w')
  | (.ok (), w') => w'.rename (s.staging w key) (s.entryPath key)

/-- Store an envelope for a request. -/
def stored (s : Store) (w : World) (paths : List FilePath) (settings : List String)
    (e : Envelope) : Except Error Unit × World :=
  match Yaml.render e.asTree with
  | .error obstacle => (.error (.unwritable obstacle), w)
  | .ok text =>
    match s.replaced w (Cache.key w.directory paths settings) text with
    | (.error fault, w') => (.error (.system fault), w')
    | (.ok (), w') => (.ok (), w')

/-- Record the running program in a ledger. -/
def signed (l : Ledger) : ExceptT Error InWorld Ledger := do
  match ← Host.program with
  | some program => l.track program .observed [(Record.engineAttribute, engineName)]
  | none => pure l

/-- The envelope of a result that is saved in a world. -/
def envelope (w : World) (paths : List FilePath) (tree : Tree) (l : Ledger) : Envelope :=
  ⟨engineName, paths.map (FilePath.normalize w.directory), tree, l⟩

variable {s : Store} {w w' : World} {paths : List FilePath} {settings : List String} {tree : Tree}
  {l : Ledger}

theorem signed_ends (l : Ledger) (w : World) :
    ∃ l' w', outcome (signed l) w = (.ok l', w') ∧ Noted w w' := by
  have hleaves : Leaves Noted (signed l) := by
    refine (leaves_program noted_noting).bind noted_noting fun program => ?_
    split
    · exact leaves_track noted_noting _ _ _ _
    · exact Leaves.pure noted_noting
  exact hleaves w

theorem replaceFile_run (s : Store) (w : World) (key text : String) :
    outcome (s.replaceFile key text : ExceptT Error InWorld _) w =
      (.ok (s.replaced w key text).1, (s.replaced w key text).2) := by
  have htoken : outcome (Host.token : ExceptT Error InWorld String) w = (.ok w.token, w) := rfl
  have hwrite : outcome (Host.write (s.staging w key) text.toUTF8 : ExceptT Error InWorld _) w =
      (.ok (w.write (s.staging w key) text.toUTF8).1,
        (w.write (s.staging w key) text.toUTF8).2) := rfl
  rw [replaceFile, outcome_bind_of_ok htoken]
  refine (outcome_bind_of_ok hwrite _).trans ?_
  unfold replaced
  rcases w.write (s.staging w key) text.toUTF8 with ⟨_ | _, w₁⟩
  · rfl
  · rfl

/-- Save a result with a ledger in which the running program is recorded. -/
def saveSigned (s : Store) (paths : List FilePath) (settings : List String) (tree : Tree)
    (l : Ledger) : ExceptT Error InWorld (Ledger × Except Error Unit) := do
  match ← Host.makeDirectories s.root with
  | .error fault => return (l, .error (.system fault))
  | .ok () =>
    let inputs ← paths.mapM Host.normalize
    match Yaml.render (Envelope.mk engineName inputs tree l).asTree with
    | .error obstacle => return (l, .error (.unwritable obstacle))
    | .ok text =>
      match ← s.replaceFile (← keyFor paths settings) text with
      | .error fault => return (l, .error (.system fault))
      | .ok () => return (l, .ok ())

theorem save_eq {l' : Ledger} (hsigned : outcome (signed l) w = (.ok l', w')) :
    outcome (s.save paths settings tree l) w =
      outcome (s.saveSigned paths settings tree l') w' := by
  have hprogram : outcome (Host.program : ExceptT Error InWorld _) w = (.ok w.program, w) := rfl
  rw [signed, outcome_bind_of_ok hprogram] at hsigned
  rw [save, outcome_bind_of_ok hprogram]
  cases hsome : w.program with
  | none =>
    rw [hsome] at hsigned
    cases hsigned
    rfl
  | some program =>
    rw [hsome] at hsigned
    exact outcome_bind_of_ok hsigned _

/-- When the directory has been made, the result is stored with its ledger. -/
theorem saveSigned_of_made {w₁ : World}
    (hmade : outcome (Host.makeDirectories s.root : ExceptT Error InWorld _) w = (.ok (.ok ()), w₁)) :
    outcome (s.saveSigned paths settings tree l) w =
      (.ok (l, (s.stored w₁ paths settings (envelope w₁ paths tree l)).1),
        (s.stored w₁ paths settings (envelope w₁ paths tree l)).2) := by
  have hkey : outcome (keyFor paths settings : ExceptT Error InWorld String) w₁ =
      (.ok (Cache.key w₁.directory paths settings), w₁) := rfl
  rw [saveSigned, outcome_bind_of_ok hmade]
  dsimp only
  rw [outcome_bind_of_ok (mapM_normalize_run paths w₁), stored, envelope]
  cases Yaml.render (Envelope.asTree _) with
  | error obstacle => rfl
  | ok text =>
    dsimp only
    rw [outcome_bind_of_ok hkey, outcome_bind_of_ok (replaceFile_run s w₁ _ text)]
    rcases s.replaced w₁ _ text with ⟨_ | _, w₂⟩
    · rfl
    · rfl

/-- Without the directory nothing is stored. -/
theorem saveSigned_of_fault {w₁ : World} {fault : SystemFault}
    (hmade : outcome (Host.makeDirectories s.root : ExceptT Error InWorld _) w =
      (.ok (.error fault), w₁)) :
    outcome (s.saveSigned paths settings tree l) w = (.ok (l, .error (.system fault)), w₁) := by
  rw [saveSigned, outcome_bind_of_ok hmade]
  rfl

/-- Where there is a cache, saving a result records the running program and stores the result with
its ledger. -/
theorem save_run (hroot : w.hasDirectory s.root = true) {l' : Ledger}
    (hsigned : outcome (signed l) w = (.ok l', w')) :
    outcome (s.save paths settings tree l) w =
      (.ok (l', (s.stored w' paths settings (envelope w' paths tree l')).1),
        (s.stored w' paths settings (envelope w' paths tree l')).2) := by
  obtain ⟨l₁, w₁, hends, hnoted⟩ := signed_ends l w
  cases hends.symm.trans hsigned
  rw [← hnoted.sameFiles.hasDirectory_eq] at hroot
  obtain ⟨node, hfind, hnode⟩ := (Option.any_eq_true _ _).1 hroot
  have hmade := makeDirectories_run hfind
  rw [hnode, if_pos rfl] at hmade
  rw [save_eq hsigned, saveSigned_of_made hmade]

/-- Where there is a file in place of the cache, nothing is saved. -/
theorem save_run_of_file (hroot : w.hasFile s.root = true) {l' : Ledger}
    (hsigned : outcome (signed l) w = (.ok l', w')) :
    outcome (s.save paths settings tree l) w = (.ok (l', .error (.system .exists)), w') := by
  obtain ⟨l₁, w₁, hends, hnoted⟩ := signed_ends l w
  cases hends.symm.trans hsigned
  rw [← hnoted.sameFiles.hasFile_eq] at hroot
  obtain ⟨node, hfind, hnode⟩ := (Option.any_eq_true _ _).1 hroot
  have hmade := makeDirectories_run hfind
  rw [if_neg (by simpa using hnode)] at hmade
  rw [save_eq hsigned, saveSigned_of_fault hmade]

/-! ## What is left alone -/

/-- The cache is there, as the directory at a place, and files can be named for the token. -/
structure Located (s : Store) (dir : Place) (w : World) : Prop where
  root : ∃ t, w.locate s.root = .ok (dir, some (.directory t))
  token : '/' ∉ w.token.toList

namespace Located

variable {dir : Place} {S : Place → Prop}

theorem of_sameOutside (h : s.Located dir w) (hw : SameOutside S w w') : s.Located dir w' where
  root := by
    obtain ⟨t, hlocate⟩ := h.root
    exact ⟨t, hw.locate_directory hlocate⟩
  token := by
    rw [hw.token]
    exact h.token

theorem hasDirectory (h : s.Located dir w) : w.hasDirectory s.root = true := by
  obtain ⟨t, hlocate⟩ := h.root
  rw [World.hasDirectory, World.find?, hlocate]
  rfl

theorem sameOutside_answer (h : s.Located dir w) (paths : List FilePath)
    (settings : List String) : SameOutside (Inside dir) w (s.answer w paths settings).2 := by
  obtain ⟨t, hlocate⟩ := h.root
  have hname := Cache.plain_entryName w.directory paths settings
  have hremoved {w' : World} (hw : w'.locate s.root = .ok (dir, some (.directory t))) :
      SameOutside (Inside dir) w' (w'.removeFile (s.fileIn w paths settings)).2 :=
    (SameOutside.removeFile hw hname).mono fun _ hq => hq ▸ inside_append dir _
  rcases s.answer_world w paths settings with hw | hw | ⟨e, hw⟩
  · rw [hw]
    exact .refl _ w
  · rw [hw]
    exact hremoved hlocate
  · rw [hw]
    have hwarned (warnings : List String) :
        SameOutside (Inside dir) w { w with warnings := warnings } :=
      .of_sameFiles ⟨rfl, rfl, rfl⟩ rfl
    exact (hwarned _).trans (hremoved ((hwarned _).locate_directory hlocate))

theorem sameOutside_replaced (h : s.Located dir w) (paths : List FilePath)
    (settings : List String) (text : String) : SameOutside (Inside dir) w
      (s.replaced w (Cache.key w.directory paths settings) text).2 := by
  obtain ⟨t, hlocate⟩ := h.root
  have hstaging := Cache.plain_stagingName w.directory paths settings h.token
  have hwritten := SameOutside.write hlocate hstaging text.toUTF8
  have hmoved := SameOutside.rename (hwritten.locate_directory hlocate) hstaging
    (Cache.plain_entryName w.directory paths settings)
  have hwritten : SameOutside (Inside dir) w _ :=
    hwritten.mono fun _ hq => hq ▸ inside_append dir _
  have hmoved : SameOutside (Inside dir) _ _ := hmoved.mono fun _ hq =>
    hq.elim (fun hq => hq ▸ inside_append dir _) fun hq => hq ▸ inside_append dir _
  unfold replaced staging
  split
  next hwrite =>
    rw [hwrite] at hwritten
    exact hwritten
  next hwrite =>
    rw [hwrite] at hwritten hmoved
    exact hwritten.trans hmoved

theorem sameOutside_stored (h : s.Located dir w) (paths : List FilePath)
    (settings : List String) (e : Envelope) :
    SameOutside (Inside dir) w (s.stored w paths settings e).2 := by
  unfold stored
  split
  · exact .refl _ w
  next text _ =>
    have hreplaced := h.sameOutside_replaced paths settings text
    split
    next hend =>
      rw [hend] at hreplaced
      exact hreplaced
    next hend =>
      rw [hend] at hreplaced
      exact hreplaced

end Located

/-! ## What is there afterwards -/

/-- The file of a request holds an envelope as it is written, and was written at an instant. -/
def Holds (s : Store) (w : World) (paths : List FilePath) (settings : List String) (e : Envelope)
    (written : Instant) : Prop :=
  ∃ text ∈ (Yaml.render e.asTree).toOption,
    w.find? (s.fileIn w paths settings) = some (.file text.toUTF8 written)

/-- A file that is replaced has its new content. -/
theorem Located.find?_replaced {dir : Place} {text : String} (h : s.Located dir w)
    (hreplaced : s.replaced w (Cache.key w.directory paths settings) text = (.ok (), w')) :
    w'.find? (s.fileIn w paths settings) = some (.file text.toUTF8 w.now) := by
  obtain ⟨t, hroot⟩ := h.root
  have hstaging := Cache.plain_stagingName w.directory paths settings h.token
  have hname := Cache.plain_entryName w.directory paths settings
  have hroot' := (h.sameOutside_replaced paths settings text).locate_directory hroot
  rw [hreplaced] at hroot'
  unfold replaced staging at hreplaced
  split at hreplaced
  · cases hreplaced
  next w₁ hwrite =>
    have hroot₁ := (SameOutside.write hroot hstaging text.toUTF8).locate_directory hroot
    rw [hwrite] at hroot₁
    obtain ⟨place, _, hplace, -, rfl⟩ := World.write_ok hwrite
    obtain ⟨old, node, new, found, hold, hnew, rfl⟩ := World.rename_ok hreplaced
    cases (World.locate_join_of_ok hroot hroot hstaging hplace).symm.trans hplace
    obtain ⟨rfl, hnode⟩ := Prod.mk.inj (Except.ok.inj
      ((World.locate_join_of_ok hroot₁ hroot₁ hstaging hold).symm.trans hold))
    cases (World.locate_join_of_ok hroot₁ hroot₁ hname hnew).symm.trans hnew
    rw [World.node?_put (by simp), if_pos rfl] at hnode
    cases hnode
    rw [fileIn, entryPath, World.find?, World.locate_join_of_ok hroot₁ hroot' hname hnew]
    dsimp only
    rw [World.node?_put (by simp), if_pos rfl]

/-- What is stored is held. -/
theorem Located.holds {dir : Place} {e : Envelope} (h : s.Located dir w)
    (hstored : s.stored w paths settings e = (.ok (), w')) : s.Holds w' paths settings e w.now := by
  have hdirectory := (h.sameOutside_stored paths settings e).directory
  rw [hstored] at hdirectory
  unfold stored at hstored
  split at hstored
  · cases hstored
  next text hrender =>
    split at hstored
    · cases hstored
    next hreplaced =>
      cases hstored
      refine ⟨text, by rw [hrender]; rfl, ?_⟩
      rw [fileIn, hdirectory]
      exact h.find?_replaced hreplaced

end Store

end LayeredConfig
