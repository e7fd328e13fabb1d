import LayeredConfig.Proofs.Path.NormalForm
import LayeredConfig.World

/-!
# Places and the walks that lead to them

What is at a place after a change, and where the paths of the files in a directory lead: a walk that
reaches a directory goes on from there, so `root.join ⟨name⟩` leads to the place of that name in the
directory, if it leads anywhere.
-/

namespace LayeredConfig

/-! ## Paths in a directory -/

namespace FilePath

theorem Plain.isAbsolute {name : String} (h : Plain name) : isAbsolute ⟨name⟩ = false := by
  rw [FilePath.isAbsolute, beq_eq_false_iff_ne]
  exact fun hhead => h.slash (List.mem_of_head? hhead)

/-- What stands between a path and a relative one behind it. -/
def gap (p : FilePath) : String := if p.text.toList.getLast?.all (· == '/') then "" else "/"

theorem join_of_relative {base rest : FilePath} (h : rest.isAbsolute = false) :
    base.join rest = ⟨base.text ++ base.gap ++ rest.text⟩ := by
  rw [join, if_neg (by simp [h]), gap]
  split
  next hnone =>
    have hempty : base.text = "" := by simpa using hnone
    simp [hempty]
  next hslash => simp [hslash]
  next c hc hlast =>
    rw [hlast, if_neg]
    simpa using hc

theorem join_of_absolute {base rest : FilePath} (h : rest.isAbsolute = true) :
    base.join rest = rest := if_pos h

theorem gap_append {b : FilePath} (h : b.text ≠ "") (s : String) : gap ⟨s ++ b.text⟩ = b.gap := by
  have hlast : (s ++ b.text).toList.getLast? = b.text.toList.getLast? := by
    rw [String.toList_append, List.getLast?_append_of_ne_nil _ (by simpa using h)]
  rw [gap, gap, hlast]

theorem isAbsolute_append {b : FilePath} (h : b.text ≠ "") (s : String) :
    isAbsolute ⟨b.text ++ s⟩ = b.isAbsolute := by
  have hhead : (b.text ++ s).toList.head? = b.text.toList.head? := by
    rw [String.toList_append, List.head?_append_of_ne_nil _ (by simpa using h)]
  rw [isAbsolute, isAbsolute, hhead]

/-- It makes no difference which of three paths are joined first. -/
theorem join_join {b c : FilePath} (hb : b.text ≠ "") (hc : c.isAbsolute = false) (a : FilePath) :
    a.join (b.join c) = (a.join b).join c := by
  have habsolute : (b.join c).isAbsolute = b.isAbsolute := by
    rw [join_of_relative hc, String.append_assoc, isAbsolute_append hb]
  cases hrelative : b.isAbsolute with
  | true => rw [join_of_absolute (habsolute.trans hrelative), join_of_absolute hrelative]
  | false =>
    rw [join_of_relative (habsolute.trans hrelative), join_of_relative hrelative,
      join_of_relative hc, join_of_relative hc, gap_append hb]
    simp only [String.append_assoc]

/-- A name in a directory comes behind the pieces of the directory, of which an empty one at the end
is lost. -/
theorem pieces_join {name : String} (hname : Plain name) {p : FilePath} (hp : p.text ≠ "") :
    ∃ pieces, (p.join ⟨name⟩).pieces = pieces ++ [name.toList] ∧
      (p.pieces = pieces ∨ p.pieces = pieces ++ [[]]) := by
  have hsplit : Text.splitAt (· == '/') name.toList = [name.toList] := by
    rw [Text.splitAt_eq_splitOnP]
    refine List.splitOnP_eq_singleton fun c hc => ?_
    rw [beq_eq_false_iff_ne]
    rintro rfl
    exact hname.slash hc
  rw [join_of_relative hname.isAbsolute, pieces, pieces]
  by_cases hlast : p.text.toList.getLast? = some '/'
  · obtain ⟨front, hfront⟩ := List.getLast?_eq_some_iff.1 hlast
    refine ⟨Text.splitAt (· == '/') front, ?_, .inr ?_⟩
    · rw [gap, hlast, if_pos (by simp), String.append_empty, String.toList_append, hfront,
        List.append_assoc, ← hsplit]
      simp only [Text.splitAt_eq_splitOnP]
      exact List.splitOnP_append_cons _ _ (by simp)
    · rw [hfront]
      simp only [Text.splitAt_eq_splitOnP]
      exact List.splitOnP_append_cons _ _ (by simp)
  · have hgap : p.gap = "/" := by
      rw [gap, if_neg]
      cases hend : p.text.toList.getLast? with
      | none => exact absurd (by simpa using hend) hp
      | some c =>
        rw [hend] at hlast
        simpa using hlast
    have hslash : "/".toList = ['/'] := rfl
    refine ⟨_, ?_, .inl rfl⟩
    rw [hgap, String.toList_append, String.toList_append, hslash, List.append_assoc, ← hsplit]
    simp only [Text.splitAt_eq_splitOnP]
    exact List.splitOnP_append_cons _ _ (by simp)

theorem innerParts_concat {name : String} (hname : Plain name) (pieces : List (List Char)) :
    innerParts (pieces ++ [name.toList]) = innerParts pieces ++ [.name name] := by
  rw [innerParts, List.filter_append, List.map_append]
  simp [hname.isIdle, hname.part, innerParts]

/-- The name is the last part. -/
theorem fileName?_join {name : String} (hname : Plain name) {p : FilePath} (hp : p.text ≠ "") :
    (p.join ⟨name⟩).fileName? = some name := by
  obtain ⟨pieces, hpieces, -⟩ := pieces_join hname hp
  have hlast : (p.join ⟨name⟩).parts.getLast? = some (.name name) := by
    rw [parts, hpieces]
    cases pieces with
    | nil =>
      rw [List.nil_append]
      split
      next h => cases h
      next h => exact absurd (List.head_eq_of_cons_eq h) hname.nonempty
      next h => exact absurd (List.head_eq_of_cons_eq h) hname.nonempty
      next h => exact absurd (List.head_eq_of_cons_eq h) hname.here
      next h =>
        obtain ⟨rfl, rfl⟩ := List.cons_eq_cons.1 h
        rw [hname.part]
        rfl
    | cons first rest =>
      rw [List.cons_append]
      split
      next h => cases h
      next h => simp at h
      all_goals
        next h =>
          obtain ⟨-, rfl⟩ := List.cons_eq_cons.1 h
          rw [innerParts_concat hname, ← List.cons_append, List.getLast?_concat]
  rw [fileName?, hlast]

/-- What ends in `.tmp` has no other ending. -/
theorem cutName_tmp (s : String) : (cutName (s ++ ".tmp")).2 ≠ some "yml".toList := by
  have htmp : ".tmp".toList = ['.', 't', 'm', 'p'] := rfl
  rw [cutName]
  split
  · exact nofun
  · rw [String.toList_append, htmp]
    simp

end FilePath

namespace World

variable {w : World} {place q r : Place}

/-! ## Changes of places -/

theorem find?_filter_ne (nodes : List (Place × Node)) (place q : Place) :
    (nodes.filter fun e => e.1 != place).find? (fun e => e.1 == q) =
      if q = place then none else nodes.find? fun e => e.1 == q := by
  rw [List.find?_filter]
  split
  next h => simp +contextual [h]
  next h =>
    congr 1
    funext e
    by_cases hq : e.1 = q <;> simp [hq, h]

theorem node?_of_ne_nil (h : q ≠ []) (w : World) :
    w.node? q = (w.nodes.find? fun e => e.1 == q).map Prod.snd :=
  if_neg (by simpa using h)

theorem node?_erase (h : place ≠ []) (q : Place) :
    (w.erase place).node? q = if q = place then none else w.node? q := by
  by_cases hq : q = []
  · rw [hq, if_neg (Ne.symm h)]
    rfl
  · rw [node?_of_ne_nil hq, node?_of_ne_nil hq, erase, find?_filter_ne]
    split <;> rfl

theorem node?_put (h : place ≠ []) (node : Node) (q : Place) :
    (w.put place node).node? q = if q = place then some node else w.node? q := by
  by_cases hq : q = []
  · rw [hq, if_neg (Ne.symm h)]
    rfl
  · rw [node?_of_ne_nil hq, node?_of_ne_nil hq, put, List.find?_append, find?_filter_ne]
    split
    next heq => simp [heq]
    next hne => simp [Ne.symm hne]

/-! ## Walks -/

/-- A piece that leads from a directory to itself or back. -/
def Turns (q : Place) (piece : List Char) (back : Place) : Prop :=
  (FilePath.isIdle piece = true ∧ back = q) ∨ (piece = ['.', '.'] ∧ back = q.dropLast)

/-- A piece that is the name of something in a directory. -/
structure Enters (piece : List Char) : Prop where
  idle : FilePath.isIdle piece = false
  up : piece ≠ ['.', '.']
  fits : (String.ofList piece).utf8ByteSize ≤ 255

section Walks

variable {piece : List Char} {rest pieces : List (List Char)} {node : Option Node} {t : Instant}

theorem walk_turns {back : Place} (hdir : w.node? q = some (.directory t))
    (h : Turns q piece back) : w.walk q (piece :: rest) = w.walk back rest := by
  rw [walk, hdir]
  dsimp only
  rcases h with ⟨hidle, rfl⟩ | ⟨rfl, rfl⟩
  · rw [if_pos hidle]
  · rfl

/-- A name leads into the directory, where something may be missing if only slashes follow. -/
theorem walk_enters (hdir : w.node? q = some (.directory t)) (h : Enters piece) :
    w.walk q (piece :: rest) =
      if (w.node? (q ++ [String.ofList piece])).isSome then
        w.walk (q ++ [String.ofList piece]) rest
      else if rest.all (·.isEmpty) then .ok (q ++ [String.ofList piece], none)
      else .error .missing := by
  rw [walk, hdir]
  dsimp only
  rw [if_neg (by simp [h.idle]), if_neg (by simpa using h.up), if_neg (Nat.not_lt.2 h.fits)]

/-- A walk goes from directory to directory, until its pieces end or a name is missing. -/
theorem walk_cons_ok (h : w.walk q (piece :: rest) = .ok (r, node)) :
    (∃ t, w.node? q = some (.directory t)) ∧
      ((∃ back, Turns q piece back ∧ w.walk back rest = .ok (r, node)) ∨
        Enters piece ∧ ((w.node? (q ++ [String.ofList piece])).isSome = true ∧
            w.walk (q ++ [String.ofList piece]) rest = .ok (r, node) ∨
          w.node? (q ++ [String.ofList piece]) = none ∧ (rest.all (·.isEmpty)) = true ∧
            r = q ++ [String.ofList piece] ∧ node = none)) := by
  rw [walk] at h
  split at h
  · cases h
  · cases h
  next t hdir =>
    refine ⟨⟨t, hdir⟩, ?_⟩
    split at h
    next hidle => exact .inl ⟨q, .inl ⟨hidle, rfl⟩, h⟩
    next hidle =>
      split at h
      next hup => exact .inl ⟨q.dropLast, .inr ⟨by simpa using hup, rfl⟩, h⟩
      next hup =>
        dsimp only at h
        split at h
        · cases h
        next hfits =>
          refine .inr ⟨⟨by simpa using hidle, by simpa using hup, Nat.not_lt.1 hfits⟩, ?_⟩
          split at h
          next hthere => exact .inl ⟨hthere, h⟩
          next hthere =>
            split at h
            next hslashes =>
              cases h
              exact .inr ⟨by simpa using hthere, hslashes, rfl, rfl⟩
            · cases h

/-- A walk starts in a directory, or has nowhere to go. -/
theorem directory_of_walk (h : w.walk q pieces = .ok (r, node)) :
    (pieces = [] ∧ r = q) ∨ ∃ t, w.node? q = some (.directory t) := by
  cases pieces with
  | nil =>
    cases congrArg (Except.map Prod.fst) h
    exact .inl ⟨rfl, rfl⟩
  | cons piece rest => exact .inr (walk_cons_ok h).1

/-- A walk tells what is at its end. -/
theorem node_of_walk (h : w.walk q pieces = .ok (r, node)) : node = w.node? r := by
  induction pieces generalizing q with
  | nil =>
    cases h
    rfl
  | cons piece rest ih =>
    obtain ⟨-, ⟨back, -, h⟩ | ⟨-, ⟨-, h⟩ | ⟨hnone, -, rfl, rfl⟩⟩⟩ := walk_cons_ok h
    · exact ih h
    · exact ih h
    · exact hnone.symm

/-- A walk that reaches a directory goes on from there. -/
theorem walk_append (h : w.walk q pieces = .ok (r, some (.directory t)))
    (more : List (List Char)) : w.walk q (pieces ++ more) = w.walk r more := by
  induction pieces generalizing q with
  | nil =>
    rw [walk] at h
    cases congrArg (Except.map Prod.fst) h
    rfl
  | cons piece rest ih =>
    rw [List.cons_append]
    obtain ⟨⟨_, hdir⟩, ⟨back, hturns, h⟩ | ⟨henters, ⟨hthere, h⟩ | ⟨-, -, -, hnode⟩⟩⟩ :=
      walk_cons_ok h
    · rw [walk_turns hdir hturns, ih h]
    · rw [walk_enters hdir henters, if_pos hthere, ih h]
    · cases hnode

/-- A slash at the end makes no difference to a walk that reaches a directory. -/
theorem walk_of_walk_append (h : w.walk q (pieces ++ [[]]) = .ok (r, some (.directory t))) :
    w.walk q pieces = .ok (r, some (.directory t)) := by
  induction pieces generalizing q with
  | nil =>
    rw [List.nil_append] at h
    obtain ⟨⟨_, hdir⟩, ⟨back, ⟨-, rfl⟩ | ⟨hup, -⟩, hrest⟩ | ⟨henters, -⟩⟩ := walk_cons_ok h
    · exact hrest
    · cases hup
    · cases henters.idle
  | cons piece rest ih =>
    rw [List.cons_append] at h
    obtain ⟨⟨_, hdir⟩, ⟨back, hturns, h⟩ | ⟨henters, ⟨hthere, h⟩ | ⟨-, -, -, hnode⟩⟩⟩ :=
      walk_cons_ok h
    · rw [walk_turns hdir hturns, ih h]
    · rw [walk_enters hdir henters, if_pos hthere, ih h]
    · cases hnode

end Walks

/-! ## Files in a directory -/

/-- Where a path leads is what a walk finds, if the path is fit for one. -/
theorem walk_of_locate {p : FilePath} {place : Place} {node : Option Node}
    (h : w.locate p = .ok (place, node)) :
    p.text ≠ "" ∧ w.walk [] (FilePath.absolute w.directory p).pieces = .ok (place, node) := by
  unfold locate at h
  split at h
  · cases h
  next hempty =>
    split at h
    · cases h
    · split at h
      · cases h
      · exact ⟨by simpa using hempty, h⟩

/-- A plain name in a directory leads to the place of that name, if the name and the path are not
too long. -/
theorem locate_join {root : FilePath} {dir : Place} {t : Instant} {name : String}
    (hroot : w.locate root = .ok (dir, some (.directory t))) (hname : FilePath.Plain name) :
    w.locate (root.join ⟨name⟩) =
      if (root.join ⟨name⟩).text.toList.contains '\x00' then .error .badName
      else if 4096 ≤ (root.join ⟨name⟩).text.utf8ByteSize then .error .nameTooLong
      else if 255 < name.utf8ByteSize then .error .nameTooLong
      else .ok (dir ++ [name], w.node? (dir ++ [name])) := by
  obtain ⟨hempty, hwalk⟩ := walk_of_locate hroot
  have habsolute : (FilePath.absolute w.directory root).text ≠ "" := by
    unfold FilePath.absolute
    cases hrelative : root.isAbsolute with
    | true => rwa [FilePath.join_of_absolute hrelative]
    | false =>
      rw [FilePath.join_of_relative hrelative]
      simpa using fun _ _ => hempty
  have hjoined : (root.join ⟨name⟩).text.isEmpty = false := by
    rw [FilePath.join_of_relative hname.isAbsolute]
    simpa using fun _ _ => hname.nonempty
  obtain ⟨pieces, hpieces, hdir⟩ := FilePath.pieces_join hname habsolute
  have hreached : w.walk [] pieces = .ok (dir, some (.directory t)) := by
    rcases hdir with hdir | hdir
    · rw [← hdir, hwalk]
    · exact walk_of_walk_append (by rw [← hdir, hwalk])
  have hend : w.walk [] (FilePath.absolute w.directory (root.join ⟨name⟩)).pieces =
      if 255 < name.utf8ByteSize then .error .nameTooLong
      else .ok (dir ++ [name], w.node? (dir ++ [name])) := by
    rw [FilePath.absolute, FilePath.join_join hempty hname.isAbsolute]
    change w.walk [] ((FilePath.absolute w.directory root).join ⟨name⟩).pieces = _
    rw [hpieces, walk_append hreached, walk, ← node_of_walk hwalk]
    dsimp only
    rw [hname.isIdle, if_neg Bool.false_ne_true, if_neg (by simpa using hname.up),
      String.ofList_toList]
    cases hnode : w.node? (dir ++ [name]) with
    | none => rfl
    | some node => rw [Option.isSome_some, if_pos rfl, walk, hnode]
  rw [locate, hjoined, if_neg Bool.false_ne_true, hend]

/-- Whether a plain name in a directory leads anywhere does not depend on what is there. -/
theorem locate_join_of_ok {w' : World} {root : FilePath} {dir dir' : Place} {t t' : Instant}
    {name : String} (hroot : w.locate root = .ok (dir, some (.directory t)))
    (hroot' : w'.locate root = .ok (dir', some (.directory t'))) (hname : FilePath.Plain name)
    {found : Place × Option Node} (h : w.locate (root.join ⟨name⟩) = .ok found) :
    w'.locate (root.join ⟨name⟩) = .ok (dir' ++ [name], w'.node? (dir' ++ [name])) := by
  rw [locate_join hroot hname] at h
  rw [locate_join hroot' hname]
  split at h
  · cases h
  next hzero =>
    split at h
    · cases h
    next hlong =>
      split at h
      · cases h
      next hwide => rw [if_neg hzero, if_neg hlong, if_neg hwide]

/-- A plain name in a directory leads to the place of that name, or nowhere. -/
theorem locate_join_cases {root : FilePath} {dir : Place} {t : Instant} {name : String}
    (hroot : w.locate root = .ok (dir, some (.directory t))) (hname : FilePath.Plain name) :
    w.locate (root.join ⟨name⟩) = .ok (dir ++ [name], w.node? (dir ++ [name])) ∨
      ∃ fault, w.locate (root.join ⟨name⟩) = .error fault := by
  cases hlocate : w.locate (root.join ⟨name⟩) with
  | error fault => exact .inr ⟨fault, rfl⟩
  | ok found => exact .inl (hlocate ▸ locate_join_of_ok hroot hroot hname hlocate)

/-! ## Changes of files -/

theorem write_ok {w' : World} {p : FilePath} {bytes : ByteArray}
    (h : w.write p bytes = (.ok (), w')) :
    ∃ place node, w.locate p = .ok (place, node) ∧ (∀ t, node ≠ some (.directory t)) ∧
      w' = w.put place (.file bytes w.now) := by
  unfold write at h
  split at h
  · cases h
  next place content t hlocate =>
    cases h
    exact ⟨place, _, hlocate, nofun, rfl⟩
  next place hlocate =>
    split at h
    · cases h
    · cases h
      exact ⟨place, none, hlocate, nofun, rfl⟩
  · cases h

/-- A file that cannot be written stays as it was. -/
theorem write_error {w' : World} {p : FilePath} {bytes : ByteArray} {fault : SystemFault}
    (h : w.write p bytes = (.error fault, w')) : w' = w := by
  unfold write at h
  split at h
  · cases h
    rfl
  · cases h
  · split at h
    · cases h
      rfl
    · cases h
  · cases h
    rfl

/-- A file that cannot be moved stays where it was. -/
theorem rename_error {w' : World} {source target : FilePath} {fault : SystemFault}
    (h : w.rename source target = (.error fault, w')) : w' = w := by
  unfold rename at h
  split at h
  case h_6 => cases h
  all_goals
    cases h
    rfl

theorem rename_ok {w' : World} {source target : FilePath}
    (h : w.rename source target = (.ok (), w')) :
    ∃ old node new found, w.locate source = .ok (old, some node) ∧
      w.locate target = .ok (new, found) ∧ w' = (w.erase old).put new node := by
  unfold rename at h
  split at h
  case h_6 old node new found _ _ hsource htarget =>
    cases h
    exact ⟨old, node, new, found, hsource, htarget, rfl⟩
  all_goals cases h

end World

end LayeredConfig
