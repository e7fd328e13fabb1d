import LayeredConfig.Proofs.Cache.Contents
import Mathlib.Data.List.Perm.Subperm

/-!
# A cache that is used

While a cache is used, its directory is made if it is missing (`opened`), and files in it come and
go. `Beside` says that some paths have nothing to do with that: where they lead, all stays as it
is. Whatever the directory holds at first, the cache serves (`Serving`) if the entries that will
still be asked for are no entries of this engine or hold what is known to be right; looking up and
saving what is known preserve this. So an entry may be as broken as it likes, unless it is taken for
one that this engine has written.
-/

namespace LayeredConfig

open Cache (Query query Separate)

/-! ## Worlds with the same files -/

namespace SameFiles

variable {w v : World}

theorem entry_eq (h : SameFiles w v) (file : FilePath) : v.entry file = w.entry file := by
  rw [World.entry, World.entry, World.text, World.text, h.content_eq]

theorem makeDirectory (h : SameFiles w v) (p : FilePath) :
    (v.makeDirectory p).1 = (w.makeDirectory p).1 ∧
      SameFiles (w.makeDirectory p).2 (v.makeDirectory p).2 ∧
      (v.makeDirectory p).2.token = v.token := by
  unfold World.makeDirectory
  rw [h.locate_eq]
  rcases w.locate p with fault | ⟨place, _ | node⟩
  · exact ⟨rfl, h, rfl⟩
  · refine ⟨rfl, ⟨?_, h.directory, h.directoryTime⟩, rfl⟩
    change v.nodes.filter _ ++ [(place, Node.directory v.directoryTime)] = _
    rw [h.nodes, h.directoryTime]
    rfl
  · exact ⟨rfl, h, rfl⟩

/-- Making a directory and accepting one that is there ends alike. -/
theorem makeDirectory_orThere (h : SameFiles w v) (p : FilePath) : ∃ made w' v',
    outcome (Host.orThere p (w.makeDirectory p).1 : ExceptT Error InWorld _)
      (w.makeDirectory p).2 = (.ok made, w') ∧
    outcome (Host.orThere p (w.makeDirectory p).1 : ExceptT Error InWorld _)
      (v.makeDirectory p).2 = (.ok made, v') ∧ SameFiles w' v' ∧ v'.token = v.token := by
  obtain ⟨-, hfiles, htoken⟩ := h.makeDirectory p
  refine ⟨_, _, _, orThere_run _ p _, ?_, hfiles, htoken⟩
  rw [orThere_run, hfiles.hasDirectory_eq]

/-- Making directories ends alike in worlds with the same files. -/
theorem makeDirectoriesWithin (h : SameFiles w v) (depth : Nat) (p : FilePath) :
    ∃ made w' v', outcome (Host.makeDirectoriesWithin depth p : ExceptT Error InWorld _) w =
        (.ok made, w') ∧
      outcome (Host.makeDirectoriesWithin depth p : ExceptT Error InWorld _) v = (.ok made, v') ∧
      SameFiles w' v' ∧ v'.token = v.token := by
  induction depth generalizing p with
  | zero => exact ⟨_, w, v, rfl, rfl, h, rfl⟩
  | succ depth ih =>
    rw [Host.makeDirectoriesWithin]
    by_cases hempty : p.text.isEmpty = true
    · rw [if_pos hempty]
      exact ⟨_, w, v, rfl, rfl, h, rfl⟩
    rw [if_neg hempty, outcome_bind_of_ok (makeDirectory_run w p),
      outcome_bind_of_ok (makeDirectory_run v p), (h.makeDirectory p).1]
    split
    next hmissing =>
      have hmissing' := hmissing
      rw [← (h.makeDirectory p).1] at hmissing'
      rw [World.makeDirectory_eq_of_error hmissing, World.makeDirectory_eq_of_error hmissing']
      cases p.parent? with
      | none => exact ⟨_, w, v, rfl, rfl, h, rfl⟩
      | some parent =>
        obtain ⟨made, w₁, v₁, hmade, hmade', h₁, htoken⟩ := ih parent
        dsimp only
        rw [outcome_bind_of_ok hmade, outcome_bind_of_ok hmade']
        cases made with
        | error fault => exact ⟨_, w₁, v₁, rfl, rfl, h₁, htoken⟩
        | ok u =>
          dsimp only
          rw [outcome_bind_of_ok (makeDirectory_run w₁ p),
            outcome_bind_of_ok (makeDirectory_run v₁ p), (h₁.makeDirectory p).1]
          obtain ⟨made, w₂, v₂, hw, hv, h₂, htoken'⟩ := h₁.makeDirectory_orThere p
          exact ⟨made, w₂, v₂, hw, hv, h₂, htoken'.trans htoken⟩
    · exact h.makeDirectory_orThere p

end SameFiles

/-- Removing a file takes away what is at its place, or nothing. -/
theorem World.removeFile_cases (w : World) (p : FilePath) :
    (w.removeFile p).2 = w ∨ ∃ place, place ≠ [] ∧ (w.removeFile p).2 = w.erase place := by
  unfold World.removeFile
  rcases hlocate : w.locate p with fault | ⟨place, _ | ⟨_ | _⟩⟩
  · exact .inl rfl
  · exact .inl rfl
  · refine .inr ⟨place, ?_, rfl⟩
    rintro rfl
    cases World.node_of_walk (World.walk_of_locate hlocate).2
  · exact .inl rfl

namespace Store

variable {s : Store} {w v v' : World} {key : String}

/-! ## Entries before and after -/

/-- What is found as an entry is at its place. -/
theorem node?_entryPlace (hroot : s.root.text ≠ "") (hkey : IsKey key) {node : Node}
    (h : w.find? (s.entryPath key) = some node) : w.node? (s.entryPlace w key) = some node := by
  rw [World.find?] at h
  split at h
  next place _ hlocate =>
    rw [← placeOf_entryPath hroot hkey, ← World.placeOf_of_locate hlocate,
      ← World.node_of_walk (World.walk_of_locate hlocate).2, h]
  · cases h

/-- An entry was there before if at its place all is as it was. -/
theorem entry_of_node?_eq (hroot : v.hasDirectory s.root = true)
    (hroot' : v'.hasDirectory s.root = true) (hdirectory : v'.directory = v.directory)
    (hkey : IsKey key) (hnode : v'.node? (s.entryPlace v key) = v.node? (s.entryPlace v key))
    {e : Envelope} (h : v'.entry (s.entryPath key) = .ok e) :
    v.entry (s.entryPath key) = .ok e := by
  obtain ⟨bytes, t, text, hfile, htext, hdecode⟩ := World.entry_eq_ok_iff.1 h
  have hplace : s.entryPlace v' key = s.entryPlace v key := by
    rw [entryPlace, entryPlace, World.placeOf, World.placeOf, hdirectory]
  refine World.entry_eq_ok_iff.2 ⟨bytes, t, text, ?_, htext, hdecode⟩
  exact find?_entryPath hroot' hroot hdirectory.symm hkey (by rw [hplace, hnode]) hfile

/-- A lookup leaves no entries but those that were there. -/
theorem entry_of_answer {dir : Place} (h : s.Located dir v) (hroot : s.root.text ≠ "")
    (paths : List FilePath) (settings : List String) (hkey : IsKey key) {e : Envelope}
    (he : (s.answer v paths settings).2.entry (s.entryPath key) = .ok e) :
    v.entry (s.entryPath key) = .ok e := by
  have hchanged := h.sameOutside_answer paths settings
  have hdirectory := hchanged.directory
  have hplace : s.entryPlace (s.answer v paths settings).2 key = s.entryPlace v key := by
    rw [entryPlace, entryPlace, World.placeOf, World.placeOf, hdirectory]
  refine entry_of_node?_eq h.hasDirectory (h.of_sameOutside hchanged).hasDirectory hdirectory hkey
    ?_ he
  obtain ⟨bytes, t, _, hfile, -, -⟩ := World.entry_eq_ok_iff.1 he
  have hthere := node?_entryPlace hroot hkey hfile
  rw [hplace] at hthere
  -- What is there after something was taken away was there before.
  have hremoved {w : World} (hnodes : w.nodes = v.nodes) (p : FilePath)
      (hthere : (w.removeFile p).2.node? (s.entryPlace v key) = some (.file bytes t)) :
      (w.removeFile p).2.node? (s.entryPlace v key) = v.node? (s.entryPlace v key) := by
    have hsame : w.node? (s.entryPlace v key) = v.node? (s.entryPlace v key) := by
      rw [World.node?_of_ne_nil (by simp [entryPlace]),
        World.node?_of_ne_nil (by simp [entryPlace]), hnodes]
    rcases w.removeFile_cases p with hw | ⟨place, hplace, hw⟩
    · rw [hw, hsame]
    · rw [hw, World.node?_erase hplace] at hthere ⊢
      split at hthere
      · cases hthere
      next hne => rw [if_neg hne, hsame]
  rcases s.answer_world v paths settings with hw | hw | ⟨fault, hw⟩
  · rw [hw]
  · rw [hw] at hthere ⊢
    exact hremoved rfl _ hthere
  · rw [hw, spoiled] at hthere ⊢
    refine hremoved ?_ _ hthere
    rfl

/-- Storing an envelope changes no other entry than that of the request, and not even this if it
fails. -/
theorem entry_of_stored {dir : Place} (h : s.Located dir v) {paths : List FilePath}
    {settings : List String} {e : Envelope} {r : Except Error Unit}
    (hstored : s.stored v paths settings e = (r, v')) (hkey : IsKey key)
    (hother : r = .ok () → key ≠ (query v paths settings).key) {e' : Envelope}
    (he : v'.entry (s.entryPath key) = .ok e') : v.entry (s.entryPath key) = .ok e' := by
  obtain ⟨t, hroot⟩ := h.root
  have hdir : dir = v.placeOf s.root := World.placeOf_of_locate hroot
  have hchanged := h.sameOutside_stored paths settings e
  rw [hstored] at hchanged
  refine entry_of_node?_eq h.hasDirectory (h.of_sameOutside hchanged).hasDirectory
    hchanged.directory hkey ?_ he
  unfold stored at hstored
  split at hstored
  · cases hstored
    rfl
  next text _ =>
    rcases hreplaced : s.replaced v (Cache.key v.directory paths settings) text with ⟨r', v₁⟩
    have hcases := replaced_cases h hreplaced
    rw [hreplaced] at hstored
    obtain ⟨rfl, hok⟩ : v₁ = v' ∧ (r' = .ok () → r = .ok ()) := by
      cases r' <;> cases hstored <;> exact ⟨rfl, fun hok => by cases hok <;> rfl⟩
    rcases hcases with ⟨-, rfl | rfl⟩ | ⟨rfl, rfl⟩
    · rfl
    · rw [World.node?_put (by simp), if_neg]
      rw [hdir]
      exact entryPlace_ne_staging s v key _
    · rw [hdir]
      exact (node?_moved s v _ key _).trans (if_neg (hother (hok rfl)))

/-! ## The directory of the cache -/

/-- The world in which the directory of the cache has been made, as far as it can be. -/
def opened (s : Store) (w : World) : World :=
  (outcome (Host.makeDirectories s.root : ExceptT Error InWorld _) w).2

theorem opened_eq (h : w.hasDirectory s.root = true) : s.opened w = w := by
  obtain ⟨node, hfind, -⟩ := (Option.any_eq_true _ _).1 h
  rw [opened, makeDirectories_run hfind]

theorem opened_grown (s : Store) (w : World) :
    World.Grown (fun place => ∃ q, q.Above s.root ∧ place = w.placeOf q) w (s.opened w) := by
  obtain ⟨made, w', hmade, hgrown, -⟩ :=
    makeDirectoriesWithin_run (s.root.pieces.length + 1) w s.root
  have hopened : s.opened w = w' := congrArg Prod.snd hmade
  rwa [hopened]

/-- Where there are the same files as before the directory was made, it can be made, or not, as it
could be before. -/
theorem opened_of_sameFiles (hroot : s.root.text ≠ "") (h : SameFiles w v) :
    ∃ made v', outcome (Host.makeDirectories s.root : ExceptT Error InWorld _) v = (.ok made, v') ∧
      SameFiles (s.opened w) v' ∧ v'.token = v.token ∧
      (made = .ok () → v'.hasDirectory s.root = true) := by
  obtain ⟨made, w', v', hmade, hmade', hfiles, htoken⟩ :=
    h.makeDirectoriesWithin (s.root.pieces.length + 1) s.root
  obtain ⟨made₁, v₁, hmade₁, -, hthere⟩ :=
    makeDirectoriesWithin_run (s.root.pieces.length + 1) v s.root
  obtain ⟨rfl, rfl⟩ : made₁ = made ∧ v₁ = v' := by
    cases hmade₁.symm.trans hmade'
    exact ⟨rfl, rfl⟩
  have hopened : s.opened w = w' := congrArg Prod.snd hmade
  exact ⟨_, _, hmade', by rwa [hopened], htoken, fun hok => hthere hok hroot⟩

/-- A cache lies beside some paths: they do not lead to files in its directory, and it makes no
difference to them whether the directory is made. If that is to be made, it will be empty; if that
fails, it leaves no trace. -/
structure Beside (s : Store) (w : World) (P : FilePath → Prop) : Prop where
  sound : w.Sound
  token : '/' ∉ w.token.toList
  nonempty : s.root.text ≠ ""
  traceless : (s.opened w).hasDirectory s.root = false → s.opened w = w
  vacant : w.hasDirectory s.root = false →
    ∀ name, (s.opened w).node? (w.placeOf s.root ++ [name]) = none
  packages : ∀ name, s.packages.directoryIn (s.opened w) name = s.packages.directoryIn w name
  same : ∀ p, P p → (s.opened w).find? p = w.find? p
  avoids : ∀ p, P p → (s.opened w).Avoids (Inside (w.placeOf s.root)) p

/-- If no entry for a key is of this engine, none is after the directory has been made. -/
theorem Beside.faulty_opened {P : FilePath → Prop} (h : s.Beside w P) (hkey : IsKey key)
    (hfaulty : ∀ e, w.entry (s.entryPath key) = .ok e → e.engine ≠ engineName) :
    ∀ e, (s.opened w).entry (s.entryPath key) = .ok e → e.engine ≠ engineName := by
  intro e he
  cases hroot : w.hasDirectory s.root with
  | true =>
    rw [opened_eq hroot] at he
    exact hfaulty e he
  | false =>
    obtain ⟨bytes, t, _, hfile, -, -⟩ := World.entry_eq_ok_iff.1 he
    have hthere := node?_entryPlace h.nonempty hkey hfile
    rw [entryPlace, World.placeOf, (s.opened_grown w).directory, ← World.placeOf,
      h.vacant hroot] at hthere
    cases hthere

/-! ## A cache in use -/

section Serving

variable (s : Store) (R : Set Query) (Known : Query → Tree → Prop) (w : World)

/-- The cache has not been there, and nothing has been changed. -/
structure Untouched (v : World) : Prop extends SameFiles w v where
  root : w.hasDirectory s.root = false
  token : v.token = w.token

/-- The cache is there now, and only files in it may have been changed. Among them, the entries that
this engine has for some queries have results that are known. -/
structure InUse (l : List Query) (v : World) : Prop where
  root : (s.opened w).hasDirectory s.root = true
  outside : SameOutside (Inside (w.placeOf s.root)) (s.opened w) v
  entries : ∀ q ∈ l, ∀ e, v.entry (s.entryPath q.key) = .ok e → e.engine = engineName →
    Known q e.tree

/-- A world that came from another one while a cache was used, in which some queries will still be
asked. What is saved for a query that will be asked again reads back. -/
structure Serving (l : List Query) (v : World) : Prop where
  asked : ∀ q ∈ l, q ∈ R
  reads : ∀ q, 2 ≤ l.count q → ∀ t, Known q t →
    ∀ ledger, Envelope.ReadsBack ⟨engineName, q.paths, t, ledger⟩
  state : s.Untouched w v ∨ s.InUse Known w l v

end Serving

variable {R : Set Query} {Known : Query → Tree → Prop} {P : FilePath → Prop} {q : Query}
  {l l' : List Query} {paths : List FilePath} {settings : List String}

namespace InUse

theorem noted (h : s.InUse Known w l v) (hv : SameFiles v v') (htoken : v'.token = v.token) :
    s.InUse Known w l v' where
  root := h.root
  outside := h.outside.trans (.of_sameFiles hv htoken)
  entries q hq e he := by
    refine h.entries q hq e ?_
    rwa [hv.entry_eq] at he

theorem fewer (h : s.InUse Known w l v) (hl : ∀ q ∈ l', q ∈ l) : s.InUse Known w l' v :=
  ⟨h.root, h.outside, fun q hq => h.entries q (hl q hq)⟩

theorem located (h : s.InUse Known w l v) (htoken : '/' ∉ w.token.toList) :
    s.Located (w.placeOf s.root) v := by
  have hgrown := s.opened_grown w
  obtain ⟨t, hlocate⟩ := locate_root h.root
  have hplace : (s.opened w).placeOf s.root = w.placeOf s.root := by
    rw [World.placeOf, World.placeOf, hgrown.directory]
  rw [hplace] at hlocate
  have hopened : s.Located (w.placeOf s.root) (s.opened w) :=
    ⟨⟨t, hlocate⟩, by rwa [hgrown.token]⟩
  exact hopened.of_sameOutside h.outside

end InUse

namespace Serving

theorem directory (h : s.Serving R Known w l v) : v.directory = w.directory := by
  rcases h.state with hstate | hstate
  · exact hstate.directory
  · exact hstate.outside.directory.trans (s.opened_grown w).directory

theorem noted (h : s.Serving R Known w l v) (hv : SameFiles v v') (htoken : v'.token = v.token) :
    s.Serving R Known w l v' where
  asked := h.asked
  reads := h.reads
  state := h.state.imp
    (fun hstate => ⟨hstate.toSameFiles.trans hv, hstate.root, htoken.trans hstate.token⟩)
    fun hstate => hstate.noted hv htoken

theorem unnoted (s : Store) (R : Set Query) (Known : Query → Tree → Prop) (w : World)
    (l : List Query) : Unnoted (s.Serving R Known w l) where
  memo h _ := h.noted ⟨rfl, rfl, rfl⟩ rfl
  warned h _ := h.noted ⟨rfl, rfl, rfl⟩ rfl
  parsed h _ := h.noted ⟨rfl, rfl, rfl⟩ rfl

theorem fewer (h : s.Serving R Known w l v) (hl : l'.Subperm l) : s.Serving R Known w l' v where
  asked q hq := h.asked q (hl.subset hq)
  reads q hq := h.reads q (Nat.le_trans hq (hl.count_le q))
  state := h.state.imp_right fun hstate => hstate.fewer fun _ hq => hl.subset hq

/-- A cache whose entries are all faulty serves. -/
theorem start (hasked : ∀ q ∈ l, q ∈ R)
    (hreads : ∀ q, 2 ≤ l.count q → ∀ t, Known q t →
      ∀ ledger, Envelope.ReadsBack ⟨engineName, q.paths, t, ledger⟩)
    (hfaulty : ∀ q ∈ R, ∀ e, w.entry (s.entryPath q.key) = .ok e → e.engine ≠ engineName) :
    s.Serving R Known w l w where
  asked := hasked
  reads := hreads
  state := by
    cases hroot : w.hasDirectory s.root with
    | false => exact .inl ⟨.refl w, hroot, rfl⟩
    | true =>
      refine .inr ⟨?_, ?_, fun q hq e he hengine => ?_⟩
      · rwa [opened_eq hroot]
      · rw [opened_eq hroot]
        exact .refl _ w
      · exact absurd hengine (hfaulty q (hasked q hq) e he)

/-- Looking up a request, whatever is found, does no harm. -/
theorem looked (h : s.Serving R Known w l v) (hbeside : s.Beside w P) (paths : List FilePath)
    (settings : List String) : s.Serving R Known w l (s.answer v paths settings).2 where
  asked := h.asked
  reads := h.reads
  state := by
    rcases h.state with hstate | hstate
    · have hmiss : s.answer v paths settings = (none, v) := by
        rw [answer, hstate.toSameFiles.hasDirectory_eq, hstate.root]
        rfl
      rw [hmiss]
      exact .inl hstate
    · have hlocated := hstate.located hbeside.token
      refine .inr ⟨hstate.root, hstate.outside.trans (hlocated.sameOutside_answer paths settings),
        fun q hq e he => ?_⟩
      exact hstate.entries q hq e
        (entry_of_answer hlocated hbeside.nonempty paths settings q.isKey he)

/-- The cache answers with what is known, or not at all. -/
theorem lookup (h : s.Serving R Known w l v) (hbeside : s.Beside w P)
    (hasked : query v paths settings ∈ l) :
    ∃ hit v', outcome (s.lookup paths settings) v = (.ok hit, v') ∧ s.Serving R Known w l v' ∧
      ∀ result ∈ hit, Known (query v paths settings) result.1 := by
  refine ⟨_, _, lookup_run s v paths settings, h.looked hbeside paths settings,
    fun result hresult => ?_⟩
  obtain ⟨e, written, hanswers, rfl⟩ := answer_fst_eq_some_iff.1 hresult
  rcases h.state with hstate | hstate
  · have hroot := hanswers.root
    rw [hstate.toSameFiles.hasDirectory_eq, hstate.root] at hroot
    cases hroot
  · exact hstate.entries _ hasked e hanswers.entry hanswers.engine

/-- Making the directory of the cache, if it is missing, does no harm. -/
theorem made (h : s.Serving R Known w l v) (hbeside : s.Beside w P)
    (hfaulty : ∀ q ∈ R, ∀ e, w.entry (s.entryPath q.key) = .ok e → e.engine ≠ engineName) :
    ∃ made v', outcome (Host.makeDirectories s.root : ExceptT Error InWorld _) v = (.ok made, v') ∧
      s.Serving R Known w l v' ∧ (made = .ok () → s.InUse Known w l v') := by
  rcases h.state with hstate | hstate
  · obtain ⟨made, v', hmade, hfiles, htoken, hthere⟩ :=
      opened_of_sameFiles hbeside.nonempty hstate.toSameFiles
    refine ⟨made, v', hmade, ?_⟩
    have hinUse (hroot : (s.opened w).hasDirectory s.root = true) : s.InUse Known w l v' := by
      have htokens : v'.token = (s.opened w).token :=
        (htoken.trans hstate.token).trans (s.opened_grown w).token.symm
      refine ⟨hroot, .of_sameFiles hfiles htokens, fun q hq e he hengine => ?_⟩
      rw [hfiles.entry_eq] at he
      exact absurd hengine (hbeside.faulty_opened q.isKey (hfaulty q (h.asked q hq)) e he)
    cases hroot : (s.opened w).hasDirectory s.root with
    | true => exact ⟨⟨h.asked, h.reads, .inr (hinUse hroot)⟩, fun _ => hinUse hroot⟩
    | false =>
      rw [hbeside.traceless hroot] at hfiles
      refine ⟨⟨h.asked, h.reads, .inl ⟨hfiles, hstate.root, htoken.trans hstate.token⟩⟩, ?_⟩
      intro hok
      have hthere := hthere hok
      rw [hfiles.hasDirectory_eq, hstate.root] at hthere
      cases hthere
  · obtain ⟨node, hfind, hnode⟩ :=
      (Option.any_eq_true _ _).1 (hstate.located hbeside.token).hasDirectory
    have hmade := makeDirectories_run hfind
    rw [hnode, if_pos rfl] at hmade
    exact ⟨_, v, hmade, h, fun _ => hstate⟩

/-- Keeping what is known of a query leaves the entries that will be asked for right. -/
theorem stored (h : s.Serving R Known w (query v paths settings :: l) v) (hR : Separate R)
    (hbeside : s.Beside w P) (hstate : s.InUse Known w (query v paths settings :: l) v)
    {tree : Tree} (hknown : Known (query v paths settings) tree) (ledger : Ledger) :
    s.InUse Known w l (s.stored v paths settings (envelope v paths tree ledger)).2 := by
  have hlocated := hstate.located hbeside.token
  refine ⟨hstate.root, hstate.outside.trans (hlocated.sameOutside_stored _ _ _),
    fun q hq e he hengine => ?_⟩
  rcases hstored : s.stored v paths settings (envelope v paths tree ledger) with ⟨r, v'⟩
  rw [hstored] at he
  by_cases hnew : r = .ok () ∧ q.key = (query v paths settings).key
  · obtain ⟨rfl, hkey⟩ := hnew
    obtain rfl : q = query v paths settings :=
      hR.eq_of_key (h.asked q (List.mem_cons_of_mem _ hq)) (h.asked _ List.mem_cons_self) hkey
    have hagain : 2 ≤ (query v paths settings :: l).count (query v paths settings) := by
      have := List.count_pos_iff.2 hq
      rw [List.count_cons_self]
      omega
    obtain ⟨text, htext, hfile⟩ := hlocated.holds hstored
    have hdirectory := (hlocated.sameOutside_stored paths settings
      (envelope v paths tree ledger)).directory
    rw [hstored] at hdirectory
    rw [fileIn, hdirectory] at hfile
    have hread := World.entry_of_find? hfile (h.reads _ hagain tree hknown ledger text htext)
    cases hread.symm.trans he
    exact hknown
  · exact hstate.entries q (List.mem_cons_of_mem _ hq) e
      (entry_of_stored hlocated hstored q.isKey (fun hok hkey => hnew ⟨hok, hkey⟩) he) hengine

/-- Saving what is known of a query does no harm, whether it succeeds or not. -/
theorem save (h : s.Serving R Known w (query v paths settings :: l) v) (hR : Separate R)
    (hbeside : s.Beside w P)
    (hfaulty : ∀ q ∈ R, ∀ e, w.entry (s.entryPath q.key) = .ok e → e.engine ≠ engineName)
    {tree : Tree} (hknown : Known (query v paths settings) tree) (ledger : Ledger) :
    ∃ ledger' r v', outcome (s.save paths settings tree ledger) v = (.ok (ledger', r), v') ∧
      s.Serving R Known w l v' := by
  obtain ⟨ledger', v₁, hsigned, hnoted⟩ := signed_ends ledger v
  have h₁ := h.noted hnoted.sameFiles (by obtain ⟨_, _, rfl⟩ := hnoted; rfl)
  obtain ⟨made, v₂, hmade, h₂, hinUse⟩ := h₁.made hbeside hfaulty
  have hquery : query v₂ paths settings = query v paths settings := by
    rw [query, query, h₂.directory, h.directory]
  have hfewer {v : World} (h : s.Serving R Known w (query v paths settings :: l) v) :
      s.Serving R Known w l v := h.fewer (List.sublist_cons_self _ l).subperm
  rw [← hquery] at h₂ hinUse hknown
  cases made with
  | error fault =>
    exact ⟨ledger', _, v₂, (save_eq hsigned).trans (saveSigned_of_fault hmade), hfewer h₂⟩
  | ok u =>
    refine ⟨ledger', _, _, (save_eq hsigned).trans (saveSigned_of_made hmade), ?_⟩
    exact ⟨(hfewer h₂).asked, (hfewer h₂).reads,
      .inr (h₂.stored hR hbeside (hinUse rfl) hknown ledger')⟩

/-! ### What stays as it is -/

theorem find?_eq (h : s.Serving R Known w l v) (hbeside : s.Beside w P) {p : FilePath} (hp : P p) :
    v.find? p = w.find? p := by
  rcases h.state with hstate | hstate
  · exact hstate.find?_eq p
  · exact (hstate.outside.find?_eq (hbeside.avoids p hp)).trans (hbeside.same p hp)

theorem directoryIn_eq (h : s.Serving R Known w l v) (hbeside : s.Beside w P) (name : String) :
    s.packages.directoryIn v name = s.packages.directoryIn w name := by
  rcases h.state with hstate | hstate
  · rw [Packages.directoryIn, Packages.directoryIn, funext hstate.toSameFiles.hasDirectory_eq]
  · exact (hstate.outside.directoryIn_eq s.packages name).trans (hbeside.packages name)

/-- Directories, and files that are not right in the directory of the cache, are still there. -/
theorem node?_eq_some (h : s.Serving R Known w l v) {place : Place} {node : Node}
    (hnode : w.node? place = some node)
    (hplace : node.isDirectory = true ∨ ¬ Inside (w.placeOf s.root) place) :
    v.node? place = some node := by
  rcases h.state with hstate | hstate
  · rw [World.node?, hstate.nodes, hstate.directoryTime, ← World.node?, hnode]
  · have hopened : (s.opened w).node? place = some node := by
      rcases (s.opened_grown w).nodes place with hsame | ⟨-, hnone, -⟩
      · exact hsame.trans hnode
      · cases hnone.symm.trans hnode
    rcases hplace with hdirectory | houtside
    · cases node with
      | file content t => cases hdirectory
      | directory t => exact (hstate.outside.directories place t).2 hopened
    · exact (hstate.outside.elsewhere place houtside).trans hopened

end Serving

end Store

end LayeredConfig
