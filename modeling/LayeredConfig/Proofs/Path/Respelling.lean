import LayeredConfig.Proofs.Making

/-!
# Paths that are spelled in different ways

A path may be spelled with more slashes and dots between its names. Where it leads stays the same if
it leads to something and does not end in a slash or dot (`walk_congr`), as long as the system takes
a path of that length. A path that leads to a file leads there in its normal form too, which is not
longer (`hasFile_normalize`).
-/

namespace LayeredConfig

/-- All characters but those at which the text is split are in the pieces. -/
theorem Text.mem_flatten_splitAt {p : Char → Bool} {c : Char} (hc : p c = false) (s : List Char) :
    c ∈ (Text.splitAt p s).flatten ↔ c ∈ s := by
  induction s with
  | nil => simp [Text.splitAt]
  | cons d rest ih =>
    rw [Text.splitAt]
    by_cases hd : p d = true
    · have hne : c ≠ d := by
        rintro rfl
        rw [hc] at hd
        cases hd
      rw [if_pos hd, List.flatten_cons, List.nil_append, ih, List.mem_cons, or_iff_right hne]
    · rw [if_neg hd]
      cases hrest : Text.splitAt p rest with
      | nil =>
        rw [Text.splitAt_eq_splitOnP] at hrest
        exact absurd hrest (List.splitOnP_ne_nil _ _)
      | cons piece pieces =>
        rw [hrest, List.flatten_cons] at ih
        rw [List.flatten_cons, List.cons_append, List.mem_cons, List.mem_cons, ih]

namespace FilePath

/-! ## Spellings -/

theorem part_injective : Function.Injective part := by
  intro a b h
  unfold part at h
  split at h
  next ha =>
    split at h
    next hb => rw [beq_iff_eq.1 ha, beq_iff_eq.1 hb]
    · cases h
  · split at h
    · cases h
    · exact String.ofList_injective (Part.name.inj h)

/-- Two lists of pieces stand for the same if they are the same but for idle pieces. -/
theorem filter_eq_of_innerParts {a b : List (List Char)} (h : innerParts a = innerParts b) :
    (a.filter fun piece => !isIdle piece) = b.filter fun piece => !isIdle piece :=
  List.map_injective_iff.2 part_injective h

/-- The paths have the same pieces but for idle ones, and end in the same piece. -/
structure Respelled (p q : FilePath) : Prop where
  inner : innerParts p.pieces = innerParts q.pieces
  last : p.pieces.getLast? = q.pieces.getLast?
  absolute : p.isAbsolute = q.isAbsolute

theorem pieces_ne_nil (p : FilePath) : p.pieces ≠ [] := by
  rw [pieces, Text.splitAt_eq_splitOnP]
  exact List.splitOnP_ne_nil _ _

theorem isAbsolute_join {base rest : FilePath} (h : rest.isAbsolute = false) :
    (base.join rest).isAbsolute = base.isAbsolute := by
  rw [join_of_relative h]
  by_cases hbase : base.text = ""
  · have hgap : base.gap = "" := by
      rw [gap, hbase]
      rfl
    have hrelative : base.isAbsolute = false := by
      rw [isAbsolute, hbase]
      rfl
    rw [hgap, hbase, String.empty_append, String.empty_append, hrelative]
    exact h
  · rw [String.append_assoc]
    exact isAbsolute_append hbase _

/-- A path seen from a directory ends in the same piece. -/
theorem getLast?_pieces_join (base rest : FilePath) :
    (base.join rest).pieces.getLast? = rest.pieces.getLast? := by
  cases habsolute : rest.isAbsolute with
  | true => rw [join_of_absolute habsolute]
  | false =>
    have hslash (front back : List Char) :
        (Text.splitAt (· == '/') (front ++ '/' :: back)).getLast? =
          (Text.splitAt (· == '/') back).getLast? := by
      simp only [Text.splitAt_eq_splitOnP]
      rw [List.splitOnP_append_cons _ _ (by simp)]
      exact List.getLast?_append_of_ne_nil _ (List.splitOnP_ne_nil _ _)
    rw [join_of_relative habsolute, pieces, pieces]
    simp only [String.toList_append]
    cases hlast : base.text.toList.getLast? with
    | none =>
      rw [gap, hlast, List.getLast?_eq_none_iff.1 hlast]
      rfl
    | some c =>
      by_cases hc : c = '/'
      · obtain ⟨front, hfront⟩ := List.getLast?_eq_some_iff.1 hlast
        rw [gap, hlast, if_pos (by simpa using hc), hfront, hc, String.toList_empty,
          List.append_nil, List.append_assoc]
        exact hslash front _
      · have hgap : base.gap.toList = ['/'] := by
          rw [gap, hlast, if_neg (by simpa using hc)]
          rfl
        rw [hgap, List.append_assoc]
        exact hslash _ _

theorem Respelled.join {p q : FilePath} (h : p.Respelled q) (base : FilePath) :
    (base.join p).Respelled (base.join q) where
  last := by rw [getLast?_pieces_join, getLast?_pieces_join, h.last]
  inner := by
    cases hp : p.isAbsolute with
    | true =>
      rw [join_of_absolute hp, join_of_absolute (h.absolute ▸ hp), h.inner]
    | false =>
      rw [innerParts_join hp, innerParts_join (h.absolute ▸ hp), h.inner]
  absolute := by
    cases hp : p.isAbsolute with
    | true =>
      rw [join_of_absolute hp, join_of_absolute (h.absolute ▸ hp), h.absolute]
    | false =>
      rw [isAbsolute_join hp, isAbsolute_join (h.absolute ▸ hp)]

theorem Respelled.symm {p q : FilePath} (h : p.Respelled q) : q.Respelled p :=
  ⟨h.inner.symm, h.last.symm, h.absolute.symm⟩

theorem Respelled.join_left {p q : FilePath} (h : p.Respelled q) {rest : FilePath}
    (hrest : rest.isAbsolute = false) : (p.join rest).Respelled (q.join rest) where
  inner := by rw [innerParts_join hrest, innerParts_join hrest, h.inner]
  last := by rw [getLast?_pieces_join, getLast?_pieces_join]
  absolute := by rw [isAbsolute_join hrest, isAbsolute_join hrest, h.absolute]

/-- A relative path is another spelling of what it is behind slashes and dots. -/
theorem respelled_join {base rest : FilePath} (hbase : ∀ piece ∈ base.pieces, isIdle piece = true)
    (hrelative : base.isAbsolute = false) (hrest : rest.isAbsolute = false) :
    rest.Respelled (base.join rest) where
  inner := by rw [innerParts_join hrest, innerParts_of_idle hbase, List.nil_append]
  last := (getLast?_pieces_join base rest).symm
  absolute := by rw [isAbsolute_join hrest, hrelative, hrest]

/-- No more than a slash comes between joined paths. -/
theorem utf8ByteSize_join (base : FilePath) {rest : FilePath} (h : rest.isAbsolute = false) :
    base.text.utf8ByteSize + rest.text.utf8ByteSize ≤ (base.join rest).text.utf8ByteSize ∧
      (base.join rest).text.utf8ByteSize ≤ base.text.utf8ByteSize + rest.text.utf8ByteSize + 1 := by
  have hgap : base.gap.utf8ByteSize ≤ 1 := by
    unfold gap
    split
    · exact Nat.zero_le 1
    · exact Nat.le_refl 1
  rw [join_of_relative h]
  simp only [String.utf8ByteSize_append]
  omega

/-- Paths spelled in different ways have the same characters, but for slashes and dots. -/
theorem Respelled.mem_text {p q : FilePath} (h : p.Respelled q) {c : Char}
    (hc : c ∈ q.text.toList) (hslash : c ≠ '/') (hdot : c ≠ '.') : c ∈ p.text.toList := by
  have hsplit : (c == '/') = false := beq_eq_false_iff_ne.2 hslash
  rw [← Text.mem_flatten_splitAt (p := (· == '/')) hsplit, List.mem_flatten] at hc ⊢
  obtain ⟨piece, hpiece, hmem⟩ := hc
  have hbusy : isIdle piece = false := by
    rw [isIdle, Bool.or_eq_false_iff, List.isEmpty_eq_false_iff, beq_eq_false_iff_ne]
    constructor
    · exact List.ne_nil_of_mem hmem
    · rintro rfl
      exact hdot (List.mem_singleton.1 hmem)
  have hkept : piece ∈ q.pieces.filter fun piece => !isIdle piece :=
    List.mem_filter.2 ⟨hpiece, by rw [hbusy]; rfl⟩
  rw [← filter_eq_of_innerParts h.inner] at hkept
  exact ⟨piece, List.mem_of_mem_filter hkept, hmem⟩

/-- The names of a path are among its parts. -/
theorem name_mem_of_mem_names {p : FilePath} {name : String} (h : name ∈ p.names) :
    .name name ∈ innerParts p.pieces := by
  suffices hall : ∀ (parts : List Part) (names : List String), name ∈ parts.foldl climb names →
      name ∈ names ∨ .name name ∈ parts by
    rw [names_eq, List.mem_reverse] at h
    exact (hall _ _ h).resolve_left nofun
  intro parts
  induction parts with
  | nil => exact fun names h => .inl h
  | cons part rest ih =>
    intro names h
    rcases ih _ h with h | h
    · cases part with
      | root => cases h
      | here => exact .inl h
      | up => exact .inl (List.mem_of_mem_tail h)
      | name s =>
        rcases List.mem_cons.1 h with rfl | h
        · exact .inr List.mem_cons_self
        · exact .inl h
    · exact .inr (List.mem_cons_of_mem _ h)

/-- The normal form of an absolute path has the characters of the path, but for slashes. -/
theorem mem_text_of_normalize {p : FilePath} (habsolute : p.isAbsolute = true)
    {directory : FilePath} {c : Char} (hc : c ∈ (normalize directory p).text.toList)
    (hslash : c ≠ '/') : c ∈ p.text.toList := by
  have hsplit : (c == '/') = false := beq_eq_false_iff_ne.2 hslash
  rw [normalize, absolute, join_of_absolute habsolute,
    ← Text.mem_flatten_splitAt (p := (· == '/')) hsplit] at hc
  have hpieces := pieces_ofNames fun _ => plain_of_mem_names (p := p)
  rw [pieces] at hpieces
  rw [hpieces] at hc
  have hname : ∃ name ∈ p.names, c ∈ name.toList := by
    split at hc
    · simp at hc
    · simpa using hc
  obtain ⟨name, hname, hmem⟩ := hname
  obtain ⟨piece, hpiece, hpart⟩ := List.mem_map.1 (name_mem_of_mem_names hname)
  unfold part at hpart
  split at hpart
  · cases hpart
  · obtain rfl := Part.name.inj hpart
    rw [String.toList_ofList] at hmem
    rw [← Text.mem_flatten_splitAt (p := (· == '/')) hsplit]
    exact List.mem_flatten.2 ⟨piece, List.mem_of_mem_filter hpiece, hmem⟩

/-! ## Lengths -/

/-- The bytes of some pieces, each with a slash. -/
def weight : List (List Char) → Nat
  | [] => 0
  | piece :: rest => (String.ofList piece).utf8ByteSize + 1 + weight rest

theorem weight_append (a b : List (List Char)) : weight (a ++ b) = weight a + weight b := by
  induction a with
  | nil => exact (Nat.zero_add _).symm
  | cons piece rest ih =>
    rw [List.cons_append, weight, weight, ih]
    omega

theorem weight_reverse (pieces : List (List Char)) : weight pieces.reverse = weight pieces := by
  induction pieces with
  | nil => rfl
  | cons piece rest ih =>
    rw [List.reverse_cons, weight_append, ih, weight, weight, weight]
    omega

/-- There is one slash less than there are pieces. -/
theorem weight_pieces (p : FilePath) : weight p.pieces = p.text.utf8ByteSize + 1 := by
  suffices hall : ∀ s : List Char,
      weight (Text.splitAt (· == '/') s) = (String.ofList s).utf8ByteSize + 1 by
    rw [pieces, hall, String.ofList_toList]
  intro s
  induction s with
  | nil => rfl
  | cons c rest ih =>
    have hcons : (String.ofList (c :: rest)).utf8ByteSize =
        c.utf8Size + (String.ofList rest).utf8ByteSize := by
      rw [String.ofList_cons]
      simp
    rw [Text.splitAt, hcons]
    by_cases hc : c = '/'
    · rw [if_pos (by simpa using hc), weight]
      change 0 + 1 + weight _ = _
      rw [ih, hc]
      change 0 + 1 + _ = 1 + _ + 1
      omega
    · rw [if_neg (by simpa using hc)]
      cases hrest : Text.splitAt (· == '/') rest with
      | nil =>
        rw [Text.splitAt_eq_splitOnP] at hrest
        exact absurd hrest (List.splitOnP_ne_nil _ _)
      | cons piece pieces =>
        rw [hrest, weight] at ih
        have hpiece : (String.ofList (c :: piece)).utf8ByteSize =
            c.utf8Size + (String.ofList piece).utf8ByteSize := by
          rw [String.ofList_cons]
          simp
        rw [weight, hpiece]
        omega

/-- Climbing along pieces gives names that weigh no more. -/
theorem weight_climb (pieces : List (List Char)) (names : List String) :
    weight (((innerParts pieces).foldl climb names).map String.toList) ≤
      weight (names.map String.toList) + weight pieces := by
  induction pieces generalizing names with
  | nil => exact Nat.le_add_right _ _
  | cons piece rest ih =>
    rw [weight]
    cases hidle : isIdle piece with
    | true =>
      rw [innerParts_cons_of_isIdle hidle]
      have := ih names
      omega
    | false =>
      rw [innerParts_cons hidle, List.foldl_cons, part]
      refine Nat.le_trans (ih _) ?_
      split
      · cases names with
        | nil => exact Nat.add_le_add_left (Nat.le_add_left _ _) _
        | cons name above =>
          rw [climb, List.tail_cons, List.map_cons, weight]
          omega
      · rw [climb, List.map_cons, weight, String.toList_ofList]
        omega

/-- The normal form of an absolute path is no longer than the path. -/
theorem utf8ByteSize_normalize_le {p : FilePath} (h : p.isAbsolute = true) (directory : FilePath) :
    (normalize directory p).text.utf8ByteSize ≤ p.text.utf8ByteSize := by
  obtain ⟨piece, rest, hpieces⟩ := isAbsolute_iff.1 h
  have hp := weight_pieces p
  have hnormal := weight_pieces (normalize directory p)
  have hnames : weight (p.names.map String.toList) ≤ weight (piece :: rest) := by
    have hclimb := weight_climb (piece :: rest) []
    rw [List.map_nil, weight, Nat.zero_add] at hclimb
    rw [names_eq, hpieces, innerParts_cons_of_isIdle rfl, List.map_reverse, weight_reverse]
    exact hclimb
  have hfirst (pieces : List (List Char)) : weight ([] :: pieces) = 1 + weight pieces := rfl
  have hpositive : 1 ≤ weight (piece :: rest) := by
    rw [weight]
    omega
  rw [normalize, absolute, join_of_absolute h, pieces_ofNames fun _ => plain_of_mem_names]
    at hnormal
  rw [normalize, absolute, join_of_absolute h]
  rw [hpieces, hfirst] at hp
  rw [hfirst] at hnormal
  split at hnormal
  · change 1 + 1 = _ at hnormal
    omega
  · omega

end FilePath

namespace World

variable {w : World} {place q r : Place} {pieces : List (List Char)} {node : Node}

/-- There is a file at a path if the path leads to one. -/
theorem hasFile_iff {p : FilePath} : w.hasFile p = true ↔
    ∃ place content t, w.locate p = .ok (place, some (.file content t)) := by
  rw [hasFile, find?]
  cases w.locate p with
  | error fault => simp
  | ok found =>
    obtain ⟨place, _ | ⟨content, t⟩ | t⟩ := found
    · simp
    · simp [Node.isDirectory]
    · simp [Node.isDirectory]

/-- A file is no directory. -/
theorem hasDirectory_of_hasFile {p : FilePath} (h : w.hasFile p = true) :
    w.hasDirectory p = false := by
  obtain ⟨place, content, t, hlocate⟩ := hasFile_iff.1 h
  rw [hasDirectory, find?, hlocate]
  rfl

/-! ## Walks -/

/-- A walk to something passes over idle pieces. -/
theorem walk_filter (h : w.walk q pieces = .ok (r, some node)) :
    w.walk q (pieces.filter fun piece => !FilePath.isIdle piece) = .ok (r, some node) := by
  induction pieces generalizing q with
  | nil => exact h
  | cons piece rest ih =>
    obtain ⟨⟨t, hdir⟩, ⟨back, hturns, hrest⟩ | ⟨henters, ⟨hthere, hrest⟩ | ⟨-, -, -, hnone⟩⟩⟩ :=
      walk_cons_ok h
    · rcases hturns with ⟨hidle, rfl⟩ | ⟨rfl, rfl⟩
      · rw [List.filter_cons_of_neg (by rw [hidle]; exact Bool.false_ne_true)]
        exact ih hrest
      · rw [List.filter_cons_of_pos rfl, walk_turns hdir (.inr ⟨rfl, rfl⟩)]
        exact ih hrest
    · rw [List.filter_cons_of_pos (by rw [henters.idle]; rfl), walk_enters hdir henters,
        if_pos hthere]
      exact ih hrest
    · cases hnone

/-- Idle pieces may be put into a walk, but not at its end. -/
theorem walk_of_filter (hlast : ∀ piece ∈ pieces.getLast?, FilePath.isIdle piece = false)
    (h : w.walk q (pieces.filter fun piece => !FilePath.isIdle piece) = .ok (r, some node)) :
    w.walk q pieces = .ok (r, some node) := by
  induction pieces generalizing q with
  | nil => exact h
  | cons piece rest ih =>
    have hrest : ∀ piece ∈ rest.getLast?, FilePath.isIdle piece = false := by
      intro last hmem
      refine hlast last ?_
      rw [List.getLast?_cons, Option.mem_def.1 hmem]
      rfl
    cases hidle : FilePath.isIdle piece with
    | true =>
      rw [List.filter_cons_of_neg (by rw [hidle]; exact Bool.false_ne_true)] at h
      -- Something that is not idle follows, so the walk is in a directory.
      have hdir : ∃ t, w.node? q = some (.directory t) := by
        rcases directory_of_walk h with ⟨hnil, -⟩ | hdir
        · cases hend : rest.getLast? with
          | none =>
            rw [List.getLast?_eq_none_iff.1 hend] at hlast
            rw [hlast piece rfl] at hidle
            cases hidle
          | some last =>
            have hkept : last ∈ rest.filter fun piece => !FilePath.isIdle piece :=
              List.mem_filter.2 ⟨List.mem_of_getLast? hend, by rw [hrest last hend]; rfl⟩
            rw [hnil] at hkept
            cases hkept
        · exact hdir
      obtain ⟨t, hdir⟩ := hdir
      rw [walk_turns hdir (.inl ⟨hidle, rfl⟩)]
      exact ih hrest h
    | false =>
      rw [List.filter_cons_of_pos (by rw [hidle]; rfl)] at h
      obtain ⟨⟨t, hdir⟩, ⟨back, hturns, hwalk⟩ | ⟨henters, ⟨hthere, hwalk⟩ | ⟨-, -, -, hnone⟩⟩⟩ :=
        walk_cons_ok h
      · rw [walk_turns hdir hturns]
        exact ih hrest hwalk
      · rw [walk_enters hdir henters, if_pos hthere]
        exact ih hrest hwalk
      · cases hnone

/-- A walk to a file does not end in a slash or dot. -/
theorem last_of_walk_file {content : ByteArray} {t : Instant}
    (hdir : ∃ t, w.node? q = some (.directory t))
    (h : w.walk q pieces = .ok (r, some (.file content t))) :
    ∀ piece ∈ pieces.getLast?, FilePath.isIdle piece = false := by
  induction pieces generalizing q with
  | nil => exact nofun
  | cons piece rest ih =>
    obtain ⟨-, hwalk⟩ := walk_cons_ok h
    cases rest with
    | nil =>
      intro last hlast
      obtain rfl : piece = last := Option.some.inj hlast
      rcases hwalk with ⟨back, ⟨-, rfl⟩ | ⟨rfl, -⟩, hrest⟩ | ⟨henters, -⟩
      · obtain ⟨u, hnode⟩ := hdir
        rw [walk, hnode] at hrest
        cases hrest
      · rfl
      · exact henters.idle
    | cons next rest =>
      intro last hlast
      rw [List.getLast?_cons_cons] at hlast
      rcases hwalk with ⟨back, -, hrest⟩ | ⟨-, ⟨-, hrest⟩ | ⟨-, -, -, hnone⟩⟩
      · exact ih (walk_cons_ok hrest).1 hrest last hlast
      · exact ih (walk_cons_ok hrest).1 hrest last hlast
      · cases hnone

/-- A path that leads somewhere is fit for the system. -/
theorem fits_of_locate {p : FilePath} {found : Place × Option Node} (h : w.locate p = .ok found) :
    '\x00' ∉ p.text.toList ∧ p.text.utf8ByteSize < 4096 := by
  rw [locate] at h
  split at h
  · cases h
  · split at h
    · cases h
    next hzero =>
      split at h
      · cases h
      next hlong => exact ⟨by simpa using hzero, Nat.not_le.1 hlong⟩

/-- A path that is too long leads nowhere. -/
theorem find?_of_long {p : FilePath} (h : 4096 ≤ p.text.utf8ByteSize) : w.find? p = none := by
  rw [find?]
  cases hlocate : w.locate p with
  | error fault => rfl
  | ok found => exact absurd (fits_of_locate hlocate).2 (Nat.not_lt.2 h)

/-- What a path leads to is found under another spelling of the path, if that is not too long and
does not end in a slash or dot. -/
theorem locate_of_respelled {p p' : FilePath} (hsame : p.Respelled p')
    (hlast : ∀ piece ∈ p.pieces.getLast?, FilePath.isIdle piece = false)
    (hshort : p'.text.utf8ByteSize < 4096) (h : w.locate p = .ok (place, some node)) :
    w.locate p' = .ok (place, some node) := by
  obtain ⟨-, hwalk⟩ := walk_of_locate h
  have hthere := hsame.join w.directory
  have hlast' : ∀ piece ∈ (FilePath.absolute w.directory p').pieces.getLast?,
      FilePath.isIdle piece = false := by
    rw [FilePath.absolute, ← hthere.last, FilePath.getLast?_pieces_join]
    exact hlast
  have hwalk' : w.walk [] (FilePath.absolute w.directory p').pieces = .ok (place, some node) := by
    refine walk_of_filter hlast' ?_
    rw [FilePath.absolute, ← FilePath.filter_eq_of_innerParts hthere.inner]
    exact walk_filter hwalk
  obtain ⟨hzero, -⟩ := fits_of_locate h
  have hempty : p'.text.isEmpty = false := by
    -- An empty path would end in an empty piece.
    rw [Bool.eq_false_iff]
    intro hempty
    have hpieces : p'.pieces = [[]] := by
      rw [FilePath.pieces, String.isEmpty_iff.1 hempty]
      rfl
    have hidle := hlast [] (hsame.last.trans (congrArg List.getLast? hpieces))
    cases hidle
  have hzero' : p'.text.toList.contains '\x00' = false := by
    rw [List.contains_eq_mem, decide_eq_false_iff_not]
    intro hmem
    exact hzero (hsame.mem_text hmem (by decide) (by decide))
  rw [locate, hempty, hzero', if_neg Bool.false_ne_true, if_neg Bool.false_ne_true,
    if_neg (Nat.not_le.2 hshort), hwalk']

/-- A file is found under another spelling of its path, if that is not too long. -/
theorem hasFile_of_respelled {p p' : FilePath} (hsame : p.Respelled p')
    (hshort : p'.text.utf8ByteSize < 4096) (h : w.hasFile p = true) : w.hasFile p' = true := by
  obtain ⟨place, content, t, hlocate⟩ := hasFile_iff.1 h
  obtain ⟨-, hwalk⟩ := walk_of_locate hlocate
  have hlast := last_of_walk_file ⟨w.directoryTime, rfl⟩ hwalk
  rw [FilePath.absolute, FilePath.getLast?_pieces_join] at hlast
  exact hasFile_iff.2 ⟨place, content, t, locate_of_respelled hsame hlast hshort hlocate⟩

/-- A directory is found under another spelling of its path, if that is not too long and does not
end in a slash or dot. -/
theorem hasDirectory_of_respelled {p p' : FilePath} (hsame : p.Respelled p')
    (hlast : ∀ piece ∈ p.pieces.getLast?, FilePath.isIdle piece = false)
    (hshort : p'.text.utf8ByteSize < 4096) (h : w.hasDirectory p = true) :
    w.hasDirectory p' = true := by
  obtain ⟨node, hnode, hdirectory⟩ := (Option.any_eq_true _ _).1 h
  rw [find?] at hnode
  split at hnode
  next place found hlocate =>
    subst hnode
    rw [hasDirectory, find?, locate_of_respelled hsame hlast hshort hlocate]
    exact hdirectory
  · cases hnode

/-! ## Normal forms -/

/-- All places above a place are directories, and its names are not too long. -/
structure Reached (w : World) (place : Place) : Prop where
  above : ∀ front name rest, place = front ++ name :: rest →
    ∃ t, w.node? front = some (.directory t)
  fits : ∀ name ∈ place, name.utf8ByteSize ≤ 255

/-- A walk to something reaches its place. -/
theorem Reached.walk (hq : w.Reached q) (h : w.walk q pieces = .ok (r, some node)) :
    w.Reached r := by
  induction pieces generalizing q with
  | nil =>
    cases congrArg (Except.map Prod.fst) h
    exact hq
  | cons piece rest ih =>
    obtain ⟨hdir, ⟨back, hturns, hrest⟩ | ⟨henters, ⟨-, hrest⟩ | ⟨-, -, -, hnone⟩⟩⟩ :=
      walk_cons_ok h
    · refine ih ?_ hrest
      rcases hturns with ⟨-, rfl⟩ | ⟨-, rfl⟩
      · exact hq
      · refine ⟨fun front name rest hplace => ?_, fun name hname =>
          hq.fits name (List.dropLast_subset q hname)⟩
        obtain ⟨last, hlast⟩ := List.dropLast_prefix q
        exact hq.above front name (rest ++ last) (by rw [← hlast, hplace]; simp)
    · refine ih ?_ hrest
      constructor
      · intro front name rest hplace
        -- The new name is the last one, or the place above was above before.
        rcases List.eq_nil_or_concat rest with rfl | ⟨rest, last, rfl⟩
        · rw [(List.append_inj' hplace rfl).1] at hdir
          exact hdir
        · refine hq.above front name rest ?_
          rw [List.concat_eq_append, ← List.cons_append, ← List.append_assoc] at hplace
          exact (List.append_inj' hplace rfl).1
      · intro name hname
        rcases List.mem_append.1 hname with hname | hname
        · exact hq.fits name hname
        · rw [List.mem_singleton.1 hname]
          exact henters.fits
    · cases hnone

/-- The names of a place that is reached lead to it. -/
theorem Reached.walk_names (h : w.Reached place) (hplain : ∀ name ∈ place, FilePath.Plain name)
    (hnode : w.node? place = some node) {front rest : Place} (hplace : place = front ++ rest) :
    w.walk front (rest.map String.toList) = .ok (place, some node) := by
  induction rest generalizing front with
  | nil =>
    rw [List.append_nil] at hplace
    rw [List.map_nil, World.walk, ← hplace, hnode]
  | cons name rest ih =>
    obtain ⟨t, hdir⟩ := h.above front name rest hplace
    have hmem : name ∈ place := hplace ▸ List.mem_append_right _ List.mem_cons_self
    have hnext : place = (front ++ [name]) ++ rest := by
      rw [hplace, List.append_assoc, List.singleton_append]
    have henters : Enters name.toList :=
      ⟨(hplain name hmem).isIdle, (hplain name hmem).up, by
        rw [String.ofList_toList]
        exact h.fits name hmem⟩
    have hthere : (w.node? (front ++ [name])).isSome = true := by
      cases rest with
      | nil =>
        rw [List.append_nil] at hnext
        rw [← hnext, hnode]
        rfl
      | cons next rest =>
        obtain ⟨u, hdir⟩ := h.above _ next rest hnext
        rw [hdir]
        rfl
    rw [List.map_cons, walk_enters hdir henters, String.ofList_toList, if_pos hthere]
    exact ih hnext

/-- What is above a place that is reached is reached. -/
theorem Reached.front {rest : Place} (h : w.Reached (place ++ rest)) : w.Reached place where
  above front name back hplace := h.above front name (back ++ rest) (by rw [hplace]; simp)
  fits name hname := h.fits name (List.mem_append_left rest hname)

/-- What a path leads to is reached. -/
theorem reached_of_locate {p : FilePath} (h : w.locate p = .ok (place, some node)) :
    w.Reached place ∧ (∀ name ∈ place, FilePath.Plain name) ∧ w.node? place = some node := by
  obtain ⟨-, hwalk⟩ := walk_of_locate h
  have hroot : w.Reached [] :=
    ⟨fun front name rest hnil => by simp at hnil, fun name hname => by cases hname⟩
  refine ⟨hroot.walk hwalk, ?_, (node_of_walk hwalk).symm⟩
  rw [placeOf_of_locate h]
  exact fun _ => plain_of_mem_placeOf

/-- A place that is reached is found under the path of its names, if that is fit for the system. -/
theorem Reached.locate (h : w.Reached place) (hplain : ∀ name ∈ place, FilePath.Plain name)
    (hnode : w.node? place = some node) (hzero : '\x00' ∉ (FilePath.ofNames place).text.toList)
    (hshort : (FilePath.ofNames place).text.utf8ByteSize < 4096) :
    w.locate (FilePath.ofNames place) = .ok (place, some node) := by
  have hempty : (FilePath.ofNames place).text.isEmpty = false := by
    rw [← Bool.not_eq_true, String.isEmpty_iff, ← String.toList_eq_nil_iff,
      FilePath.toList_ofNames]
    exact List.cons_ne_nil _ _
  have hroot : w.node? [] = some (.directory w.directoryTime) := rfl
  rw [World.locate, hempty, if_neg Bool.false_ne_true, if_neg (by simpa using hzero),
    if_neg (Nat.not_le.2 hshort), FilePath.absolute,
    FilePath.join_of_absolute (FilePath.isAbsolute_ofNames place), FilePath.pieces_ofNames hplain,
    walk_turns hroot (.inl ⟨rfl, rfl⟩)]
  split
  next hnames =>
    obtain rfl := List.isEmpty_iff.1 hnames
    rw [walk_turns hroot (.inl ⟨rfl, rfl⟩), World.walk, hnode]
  · exact h.walk_names hplain hnode rfl

/-- A file that is found under an absolute path is found under its normal form. -/
theorem hasFile_normalize {p : FilePath} (habsolute : p.isAbsolute = true)
    (h : w.hasFile p = true) : w.hasFile (FilePath.normalize w.directory p) = true := by
  obtain ⟨place, content, t, hlocate⟩ := hasFile_iff.1 h
  obtain ⟨hreached, hplain, hnode⟩ := reached_of_locate hlocate
  obtain ⟨hzero, hshort⟩ := fits_of_locate hlocate
  have hnormal : FilePath.normalize w.directory p = FilePath.ofNames place := by
    rw [placeOf_of_locate hlocate]
    rfl
  have hlength := FilePath.utf8ByteSize_normalize_le habsolute w.directory
  have hmem (hmem : '\x00' ∈ (FilePath.normalize w.directory p).text.toList) : False :=
    hzero (FilePath.mem_text_of_normalize habsolute hmem (by decide))
  rw [hnormal] at hlength hmem
  rw [hnormal]
  exact hasFile_iff.2 ⟨place, content, t,
    hreached.locate hplain hnode hmem (Nat.lt_of_le_of_lt hlength hshort)⟩

/-- The path of the first of some names is the beginning of the path of all of them. -/
theorem text_ofNames_append (lead more : List String) : ∃ rest,
    (FilePath.ofNames (lead ++ more)).text = (FilePath.ofNames lead).text ++ rest := by
  have hinner : ['/'].intercalate (lead.map String.toList) <+:
      ['/'].intercalate ((lead ++ more).map String.toList) := by
    induction lead with
    | nil => exact List.nil_prefix
    | cons name lead ih =>
      cases lead with
      | nil =>
        cases more with
        | nil => exact List.prefix_rfl
        | cons next more => exact (List.prefix_append_right_inj _).2 List.nil_prefix
      | cons next lead =>
        exact (List.prefix_append_right_inj _).2 ((List.prefix_append_right_inj _).2 ih)
  obtain ⟨rest, hrest⟩ := hinner
  refine ⟨String.ofList rest, String.toList_inj.1 ?_⟩
  rw [String.toList_append, String.toList_ofList, FilePath.toList_ofNames, FilePath.toList_ofNames,
    List.cons_append, hrest]

theorem placeOf_ofNames (h : ∀ name ∈ place, FilePath.Plain name) :
    w.placeOf (FilePath.ofNames place) = place := by
  rw [placeOf, FilePath.absolute, FilePath.join_of_absolute (FilePath.isAbsolute_ofNames place),
    FilePath.names_ofNames h]

/-- The directories above a file are found. -/
theorem hasDirectory_above {lead more : List String}
    (hplain : ∀ name ∈ lead ++ more, FilePath.Plain name) (hmore : more ≠ [])
    (h : w.hasFile (FilePath.ofNames (lead ++ more)) = true) :
    w.hasDirectory (FilePath.ofNames lead) = true := by
  obtain ⟨place, content, t, hlocate⟩ := hasFile_iff.1 h
  obtain ⟨hreached, -, -⟩ := reached_of_locate hlocate
  obtain ⟨hzero, hshort⟩ := fits_of_locate hlocate
  obtain rfl : place = lead ++ more := by
    rw [placeOf_of_locate hlocate, placeOf_ofNames hplain]
  obtain ⟨name, rest, rfl⟩ := List.exists_cons_of_ne_nil hmore
  obtain ⟨u, hdir⟩ := hreached.above lead name rest rfl
  obtain ⟨rest, htext⟩ := text_ofNames_append lead (name :: rest)
  rw [htext] at hzero hshort
  have hlocated := hreached.front.locate (List.forall_mem_append.1 hplain).1 hdir
    (fun hmem => hzero (by simp [hmem])) (by rw [String.utf8ByteSize_append] at hshort; omega)
  rw [hasDirectory, find?, hlocated]
  rfl

end World

end LayeredConfig
