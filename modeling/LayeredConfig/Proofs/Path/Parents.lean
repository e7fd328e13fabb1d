import LayeredConfig.Proofs.Places
import Mathlib.Logic.Relation

/-!
# Parts of paths and the directories above them

The parts of a relative path come behind those of the directory it is seen from, so one plain name
more in a path is one name more in its normal form. The directory that a path is written in has
fewer parts; without two dots it does not lie deeper.
-/

namespace LayeredConfig.FilePath

/-! ## Parts -/

theorem innerParts_cons_of_isIdle {piece : List Char} (h : isIdle piece = true)
    (rest : List (List Char)) : innerParts (piece :: rest) = innerParts rest := by
  simp [innerParts, h]

theorem innerParts_cons {piece : List Char} (h : isIdle piece = false) (rest : List (List Char)) :
    innerParts (piece :: rest) = part piece :: innerParts rest := by
  simp [innerParts, h]

theorem innerParts_of_idle {pieces : List (List Char)}
    (h : ∀ piece ∈ pieces, isIdle piece = true) : innerParts pieces = [] := by
  rw [innerParts, List.filter_eq_nil_iff.2 fun piece hpiece => ?_, List.map_nil]
  simp [h piece hpiece]

/-- The names of a path are those its pieces climb to. -/
theorem names_eq (p : FilePath) : p.names = ((innerParts p.pieces).foldl climb []).reverse := by
  rw [names, parts]
  split
  next h => rw [h]; rfl
  next h => rw [h]; rfl
  next rest _ h => rw [h, innerParts_cons_of_isIdle rfl]; rfl
  next rest h => rw [h, innerParts_cons_of_isIdle rfl]; rfl
  next first rest hsingle hempty hdot h =>
    have hidle : isIdle first = false := by
      rw [isIdle, Bool.or_eq_false_iff, List.isEmpty_eq_false_iff, beq_eq_false_iff_ne]
      refine ⟨?_, ?_⟩
      · rintro rfl
        exact hempty rfl
      · rintro rfl
        exact hdot rfl
    rw [h, innerParts_cons hidle]

theorem innerParts_append (a b : List (List Char)) :
    innerParts (a ++ b) = innerParts a ++ innerParts b := by
  rw [innerParts, List.filter_append, List.map_append]
  rfl

/-- The parts of a relative path come behind those of the directory it is seen from. -/
theorem innerParts_join {base rest : FilePath} (h : rest.isAbsolute = false) :
    innerParts (base.join rest).pieces = innerParts base.pieces ++ innerParts rest.pieces := by
  have hslash (front back : List Char) : (front ++ '/' :: back).splitOnP (· == '/') =
      front.splitOnP (· == '/') ++ back.splitOnP (· == '/') :=
    List.splitOnP_append_cons _ _ (by simp)
  rw [join_of_relative h]
  simp only [pieces, Text.splitAt_eq_splitOnP, String.toList_append]
  cases hlast : base.text.toList.getLast? with
  | none =>
    rw [gap, hlast, List.getLast?_eq_none_iff.1 hlast]
    simp [innerParts, isIdle]
  | some c =>
    by_cases hc : c = '/'
    · obtain ⟨front, hfront⟩ := List.getLast?_eq_some_iff.1 hlast
      rw [gap, hlast, if_pos (by simpa using hc), hfront, hc, String.toList_empty, List.append_nil,
        List.append_assoc, List.singleton_append, hslash, hslash, innerParts_append,
        innerParts_append]
      simp [innerParts, isIdle]
    · have hgap : base.gap.toList = ['/'] := by
        rw [gap, hlast, if_neg (by simpa using hc)]
        rfl
      rw [hgap, List.append_assoc, List.singleton_append, hslash, innerParts_append]

theorem Plain.pieces {name : String} (h : Plain name) : pieces ⟨name⟩ = [name.toList] := by
  rw [FilePath.pieces, Text.splitAt_eq_splitOnP]
  refine List.splitOnP_eq_singleton fun c hc => ?_
  rw [beq_eq_false_iff_ne]
  rintro rfl
  exact h.slash hc

theorem Plain.innerParts {name : String} (h : Plain name) :
    innerParts [name.toList] = [.name name] := innerParts_concat h []

/-- A plain name in a directory is one name more. -/
theorem names_absolute_join {directory root : FilePath} {name : String} (hname : Plain name)
    (hroot : root.text ≠ "") : (absolute directory (root.join ⟨name⟩)).names =
      (absolute directory root).names ++ [name] := by
  have hjoined : absolute directory (root.join ⟨name⟩) = (absolute directory root).join ⟨name⟩ := by
    rw [absolute, join_join hroot hname.isAbsolute]
    rfl
  rw [hjoined, names_eq, innerParts_join hname.isAbsolute, hname.pieces, hname.innerParts,
    List.foldl_append, names_eq (absolute directory root)]
  exact List.reverse_cons

/-! ## Directories above -/

/-- A path is one of the directories that another is written in, or that path itself. -/
def Above (p q : FilePath) : Prop := Relation.ReflTransGen (fun q p => q.parent? = some p) q p

theorem isAbsolute_iff {p : FilePath} :
    p.isAbsolute = true ↔ ∃ piece rest, p.pieces = [] :: piece :: rest := by
  rw [isAbsolute, pieces]
  cases p.text.toList with
  | nil => simp [Text.splitAt]
  | cons c rest =>
    rw [Text.splitAt]
    cases hsplit : Text.splitAt (· == '/') rest with
    | nil =>
      rw [Text.splitAt_eq_splitOnP] at hsplit
      exact absurd hsplit (List.splitOnP_ne_nil _ _)
    | cons piece pieces =>
      by_cases hc : c = '/'
      · simp [hc]
      · simp [hc]

theorem innerParts_dropIdleEnd (pieces : List (List Char)) :
    innerParts (dropIdleEnd pieces) = innerParts pieces := by
  have hsplit : pieces = dropIdleEnd pieces ++ (pieces.reverse.takeWhile isIdle).reverse := by
    rw [dropIdleEnd, ← List.reverse_append, List.takeWhile_append_dropWhile, List.reverse_reverse]
  have hidle : innerParts (pieces.reverse.takeWhile isIdle).reverse = [] :=
    innerParts_of_idle fun piece hpiece =>
      List.all_eq_true.1 List.all_takeWhile piece (List.mem_reverse.1 hpiece)
  conv_rhs => rw [hsplit, innerParts_append, hidle, List.append_nil]

theorem pieces_ofPieces {pieces : List (List Char)} (hne : pieces ≠ [])
    (h : ∀ piece ∈ pieces, '/' ∉ piece) : (ofPieces pieces).pieces = pieces := by
  rw [ofPieces, FilePath.pieces, String.toList_ofList, Text.splitAt_eq_splitOnP]
  exact List.splitOn_intercalate '/' h hne

theorem mem_of_mem_dropIdleEnd {piece : List Char} {pieces : List (List Char)}
    (h : piece ∈ dropIdleEnd pieces) : piece ∈ pieces :=
  List.mem_reverse.1 ((List.dropWhile_sublist isIdle).subset (List.mem_reverse.1 h))

/-- The directory that a path is written in has fewer parts, and starts where the path starts. -/
theorem parent?_parts {p q : FilePath} (h : p.parent? = some q) :
    q.isAbsolute = p.isAbsolute ∧ innerParts q.pieces <+: innerParts p.pieces := by
  unfold parent? at h
  split at h
  · cases h
  next first rest hpieces =>
    -- A path is absolute if it starts with an empty piece that is not its only one.
    have habsolute : p.isAbsolute = (first.isEmpty && !rest.isEmpty) := by
      rw [Bool.eq_iff_iff, isAbsolute_iff, hpieces]
      cases first <;> cases rest <;> simp
    split at h
    · split at h
      · cases h
      next hfirst =>
        cases h
        rw [habsolute, Bool.eq_false_iff.2 hfirst]
        exact ⟨rfl, List.nil_prefix⟩
    next last before hreverse =>
      have hrest : dropIdleEnd rest = before.reverse ++ [last] := by
        rw [← List.reverse_reverse (dropIdleEnd rest), hreverse, List.reverse_cons]
      have hnonempty : rest.isEmpty = false := by
        rw [List.isEmpty_eq_false_iff]
        rintro rfl
        cases hreverse
      split at h
      · cases h
        rw [habsolute, hnonempty]
        exact ⟨rfl, List.nil_prefix⟩
      next first _ _ hkept =>
        cases h
        have hslash : ∀ piece ∈ first :: dropIdleEnd before.reverse, '/' ∉ piece := by
          intro piece hpiece
          refine slash_notMem_pieces (p := p) (hpieces ▸ ?_)
          rcases List.mem_cons.1 hpiece with rfl | hpiece
          · exact List.mem_cons_self
          · refine List.mem_cons_of_mem _ (mem_of_mem_dropIdleEnd (hrest ▸ ?_))
            exact List.mem_append_left _ (mem_of_mem_dropIdleEnd hpiece)
        have hparent := pieces_ofPieces (List.cons_ne_nil _ _) hslash
        constructor
        · rw [habsolute, hnonempty, Bool.eq_iff_iff, isAbsolute_iff, hparent]
          cases hbefore : dropIdleEnd before.reverse with
          | nil => simpa using fun h => hkept h hbefore
          | cons piece rest => simp
        · rw [hparent, hpieces, ← List.singleton_append, innerParts_append,
            innerParts_dropIdleEnd, ← List.singleton_append (l := rest), innerParts_append,
            ← innerParts_dropIdleEnd rest, hrest, innerParts_append (before.reverse),
            ← List.append_assoc]
          exact List.prefix_append _ _

/-- Without two dots the names of a path are its parts, one behind the other. -/
theorem foldl_climb_length {parts : List Part} (h : ∀ part ∈ parts, ∃ name, part = .name name)
    (names : List String) : (parts.foldl climb names).length = names.length + parts.length := by
  induction parts generalizing names with
  | nil => rfl
  | cons part rest ih =>
    obtain ⟨⟨name, rfl⟩, hrest⟩ := List.forall_mem_cons.1 h
    rw [List.foldl_cons, ih hrest, climb, List.length_cons, List.length_cons]
    omega

theorem Above.parts {p q : FilePath} (h : p.Above q) :
    p.isAbsolute = q.isAbsolute ∧ innerParts p.pieces <+: innerParts q.pieces := by
  induction h with
  | refl => exact ⟨rfl, List.prefix_rfl⟩
  | tail _ hparent ih =>
    obtain ⟨habsolute, hprefix⟩ := parent?_parts hparent
    exact ⟨habsolute.trans ih.1, hprefix.trans ih.2⟩

/-- A path without two dots leads at least as deep as the directories it is written in. -/
theorem Above.length_names_le {p q : FilePath} (h : p.Above q) (hup : ['.', '.'] ∉ q.pieces)
    (directory : FilePath) :
    (absolute directory p).names.length ≤ (absolute directory q).names.length := by
  obtain ⟨habsolute, hprefix⟩ := h.parts
  have hnames : ∀ part ∈ innerParts q.pieces, ∃ name, part = .name name := by
    intro part hpart
    obtain ⟨piece, hpiece, rfl⟩ := List.mem_map.1 hpart
    refine ⟨String.ofList piece, if_neg ?_⟩
    rw [beq_iff_eq]
    rintro rfl
    exact hup (List.mem_of_mem_filter hpiece)
  have hlength (p : FilePath) (hparts : innerParts p.pieces <+: innerParts q.pieces)
      (before : List String) : ((innerParts p.pieces).foldl climb before).length =
        before.length + (innerParts p.pieces).length :=
    foldl_climb_length (fun part hpart => hnames part (hparts.subset hpart)) before
  have hle := hprefix.length_le
  rw [names_eq, names_eq, List.length_reverse, List.length_reverse]
  cases hq : q.isAbsolute with
  | true =>
    rw [absolute, absolute, join_of_absolute hq, join_of_absolute (habsolute.trans hq),
      hlength p hprefix, hlength q List.prefix_rfl]
    omega
  | false =>
    rw [absolute, absolute, innerParts_join hq, innerParts_join (habsolute.trans hq),
      List.foldl_append, List.foldl_append, hlength p hprefix, hlength q List.prefix_rfl]
    omega

/-! ## Paths of names -/

/-- No name is dropped at the end. -/
theorem dropIdleEnd_names {names : List String} (hnames : ∀ n ∈ names, Plain n) :
    dropIdleEnd (names.map String.toList) = names.map String.toList := by
  obtain rfl | ⟨front, last, rfl⟩ := List.eq_nil_or_concat' names
  · rfl
  · have hlast := (hnames last (by simp)).isIdle
    rw [dropIdleEnd, List.map_append, List.reverse_append, List.map_singleton,
      List.reverse_singleton, List.singleton_append, List.dropWhile_cons_of_neg (by simp [hlast]),
      List.reverse_cons, List.reverse_reverse]

/-- The last name is left out above a path of names. -/
theorem parent_ofNames {front : List String} {last : String}
    (hnames : ∀ n ∈ front ++ [last], Plain n) :
    (ofNames (front ++ [last])).parent = ofNames front := by
  obtain ⟨hfront, -⟩ := List.forall_mem_append.1 hnames
  have hpieces : (ofNames (front ++ [last])).pieces =
      [] :: (front ++ [last]).map String.toList := by
    rw [pieces_ofNames hnames, if_neg (by simp)]
  have hend : (dropIdleEnd ((front ++ [last]).map String.toList)).reverse =
      last.toList :: (front.map String.toList).reverse := by
    rw [dropIdleEnd_names hnames, List.map_append, List.reverse_append]
    rfl
  rw [parent, parent?, hpieces]
  dsimp only
  rw [hend]
  dsimp only
  rw [List.reverse_reverse, dropIdleEnd_names hfront]
  cases front with
  | nil => rfl
  | cons first rest =>
    refine congrArg FilePath.mk (String.toList_inj.1 ?_)
    rw [String.toList_ofList]
    exact (toList_ofNames (first :: rest)).symm

end LayeredConfig.FilePath
