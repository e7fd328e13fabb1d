import LayeredConfig.Path.File
import Mathlib.Data.List.Basic

/-!
# The normal form of paths

A path in normal form is a slash and plain names with slashes between them. Reading it back gives
these names, so it is its own normal form from wherever it is seen, and two paths in normal form
that are the same path are written alike.
-/

namespace LayeredConfig

theorem Text.splitAt_eq_splitOnP (p : Char → Bool) (s : List Char) :
    Text.splitAt p s = s.splitOnP p := by
  induction s with
  | nil => rfl
  | cons c rest ih =>
    rw [List.splitOnP_cons_eq_if_modifyHead, ← ih, Text.splitAt]
    split
    · rfl
    · cases hrest : Text.splitAt p rest with
      | nil => exact absurd (ih.symm.trans hrest) (List.splitOnP_ne_nil p rest)
      | cons piece pieces => rfl

/-- No piece holds a character at which the text was split. -/
theorem Text.eq_false_of_mem_splitAt {p : Char → Bool} {s piece : List Char} {c : Char}
    (hpiece : piece ∈ Text.splitAt p s) (hc : c ∈ piece) : p c = false := by
  induction s generalizing piece with
  | nil =>
    rw [Text.splitAt, List.mem_singleton] at hpiece
    rw [hpiece] at hc
    cases hc
  | cons d rest ih =>
    rw [Text.splitAt] at hpiece
    split at hpiece
    · rcases List.mem_cons.1 hpiece with rfl | hpiece
      · cases hc
      · exact ih hpiece hc
    next hd =>
      cases hrest : Text.splitAt p rest with
      | nil =>
        rw [hrest, List.mem_singleton] at hpiece
        rw [hpiece, List.mem_singleton] at hc
        rw [hc]
        simpa using hd
      | cons first others =>
        rw [hrest] at hpiece ih
        rcases List.mem_cons.1 hpiece with rfl | hpiece
        · rcases List.mem_cons.1 hc with rfl | hc
          · simpa using hd
          · exact ih List.mem_cons_self hc
        · exact ih (List.mem_cons_of_mem _ hpiece) hc

namespace FilePath

/-! ## Plain names -/

/-- A name that a path can have as one of its parts. -/
structure Plain (name : String) : Prop where
  nonempty : name.toList ≠ []
  here : name.toList ≠ ['.']
  up : name.toList ≠ ['.', '.']
  slash : '/' ∉ name.toList

instance (name : String) : Decidable (Plain name) :=
  decidable_of_iff (_ ∧ _ ∧ _ ∧ _)
    ⟨fun ⟨h₁, h₂, h₃, h₄⟩ => ⟨h₁, h₂, h₃, h₄⟩, fun ⟨h₁, h₂, h₃, h₄⟩ => ⟨h₁, h₂, h₃, h₄⟩⟩

theorem Plain.part {name : String} (h : Plain name) : part name.toList = .name name := by
  rw [FilePath.part, if_neg (by simpa using h.up), String.ofList_toList]

theorem Plain.isIdle {name : String} (h : Plain name) : isIdle name.toList = false := by
  rw [FilePath.isIdle, Bool.or_eq_false_iff]
  exact ⟨by simpa using h.nonempty, by simpa using h.here⟩

theorem innerParts_plain {names : List String} (h : ∀ n ∈ names, Plain n) :
    innerParts (names.map String.toList) = names.map .name := by
  induction names with
  | nil => rfl
  | cons name rest ih =>
    obtain ⟨hname, hrest⟩ := List.forall_mem_cons.1 h
    have hkept : innerParts (name.toList :: rest.map String.toList) =
        part name.toList :: innerParts (rest.map String.toList) := by
      simp [innerParts, hname.isIdle]
    rw [List.map_cons, hkept, ih hrest, hname.part, List.map_cons]

/-- A piece between slashes that is not idle is a plain name, or two dots. -/
theorem plain_of_part {piece : List Char} {name : String} (hidle : isIdle piece = false)
    (hslash : '/' ∉ piece) (h : part piece = .name name) : Plain name := by
  unfold part at h
  split at h
  · cases h
  next hup =>
    obtain rfl := Part.name.inj h
    obtain ⟨hempty, hhere⟩ := Bool.or_eq_false_iff.1 hidle
    exact {
      nonempty := by simpa using hempty
      here := by simpa using hhere
      up := by simpa using hup
      slash := by simpa using hslash }

theorem plain_of_mem_innerParts {pieces : List (List Char)} {name : String}
    (hslash : ∀ piece ∈ pieces, '/' ∉ piece) (h : .name name ∈ innerParts pieces) :
    Plain name := by
  obtain ⟨piece, hpiece, hpart⟩ := List.mem_map.1 h
  obtain ⟨hmem, hidle⟩ := List.mem_filter.1 hpiece
  exact plain_of_part (by simpa using hidle) (hslash piece hmem) hpart

theorem slash_notMem_pieces {p : FilePath} {piece : List Char} (h : piece ∈ p.pieces) :
    '/' ∉ piece := fun hmem => by
  have := Text.eq_false_of_mem_splitAt h hmem
  simp at this

theorem plain_of_mem_parts {p : FilePath} {name : String} (h : .name name ∈ p.parts) :
    Plain name := by
  have hslash : ∀ piece ∈ p.pieces, '/' ∉ piece := fun _ => slash_notMem_pieces
  unfold parts at h
  split at h
  · cases h
  · cases h
  next rest hpieces =>
    rw [hpieces] at hslash
    have hinner := List.mem_of_ne_of_mem (by simp) h
    exact plain_of_mem_innerParts (fun q hq => hslash q (List.mem_cons_of_mem _ hq)) hinner
  next rest hpieces =>
    rw [hpieces] at hslash
    have hinner := List.mem_of_ne_of_mem (by simp) h
    exact plain_of_mem_innerParts (fun q hq => hslash q (List.mem_cons_of_mem _ hq)) hinner
  next first rest hsingle hempty hdot hpieces =>
    rw [hpieces] at hslash
    rcases List.mem_cons.1 h with hfirst | hinner
    · refine plain_of_part ?_ (hslash first List.mem_cons_self) hfirst.symm
      rw [isIdle, Bool.or_eq_false_iff]
      refine ⟨?_, ?_⟩
      · rw [List.isEmpty_eq_false_iff]
        rintro rfl
        exact hempty rfl
      · rw [beq_eq_false_iff_ne]
        rintro rfl
        exact hdot rfl
    · exact plain_of_mem_innerParts (fun q hq => hslash q (List.mem_cons_of_mem _ hq)) hinner

theorem plain_of_mem_names {p : FilePath} {name : String} (h : name ∈ p.names) : Plain name := by
  suffices hall : ∀ (parts : List Part) (names : List String),
      (∀ n, .name n ∈ parts → Plain n) → (∀ n ∈ names, Plain n) →
      ∀ n ∈ parts.foldl climb names, Plain n from
    hall p.parts [] (fun _ => plain_of_mem_parts) nofun name (List.mem_reverse.1 h)
  intro parts
  induction parts with
  | nil => exact fun _ _ hnames => hnames
  | cons part rest ih =>
    intro names hparts hnames
    refine ih _ (fun n hn => hparts n (List.mem_cons_of_mem _ hn)) ?_
    cases part with
    | root => exact nofun
    | here => exact hnames
    | up => exact fun n hn => hnames n (List.mem_of_mem_tail hn)
    | name s => exact List.forall_mem_cons.2 ⟨hparts s List.mem_cons_self, hnames⟩

/-! ## Reading a path of names -/

theorem toList_ofNames (names : List String) :
    (ofNames names).text.toList = '/' :: ['/'].intercalate (names.map String.toList) := by
  simp [ofNames]

theorem isAbsolute_ofNames (names : List String) : (ofNames names).isAbsolute = true := by
  rw [isAbsolute, toList_ofNames]
  rfl

theorem pieces_ofNames {names : List String} (h : ∀ n ∈ names, Plain n) :
    (ofNames names).pieces = [] :: if names.isEmpty then [[]] else names.map String.toList := by
  rw [pieces, toList_ofNames, Text.splitAt]
  simp only [BEq.rfl, ↓reduceIte, List.cons.injEq, true_and]
  rw [Text.splitAt_eq_splitOnP]
  cases names with
  | nil => rfl
  | cons name rest =>
    refine List.splitOn_intercalate '/' (fun piece hpiece => ?_) (by simp)
    obtain ⟨n, hn, rfl⟩ := List.mem_map.1 hpiece
    exact (h n hn).slash

theorem parts_ofNames {names : List String} (h : ∀ n ∈ names, Plain n) :
    (ofNames names).parts = .root :: names.map .name := by
  rw [parts, pieces_ofNames h]
  cases names with
  | nil => rfl
  | cons name rest =>
    change Part.root :: innerParts ((name :: rest).map String.toList) = _
    rw [innerParts_plain h]

/-- The names of a path of names are these. -/
theorem names_ofNames {names : List String} (h : ∀ n ∈ names, Plain n) :
    (ofNames names).names = names := by
  have hclimb : ∀ (ns before : List String),
      (ns.map Part.name).foldl climb before = ns.reverse ++ before := by
    intro ns
    induction ns with
    | nil => exact fun _ => rfl
    | cons n rest ih =>
      intro before
      rw [List.map_cons, List.foldl_cons, ih, climb, List.reverse_cons, List.append_assoc]
      rfl
  rw [FilePath.names, parts_ofNames h, List.foldl_cons, hclimb, climb, List.append_nil,
    List.reverse_reverse]

/-! ## Normal form -/

/-- The path is the normal form of some path. -/
def IsNormal (p : FilePath) : Prop := ∃ names, (∀ n ∈ names, Plain n) ∧ p = ofNames names

theorem isNormal_normalize (directory p : FilePath) : (normalize directory p).IsNormal :=
  ⟨_, fun _ => plain_of_mem_names, rfl⟩

/-- A path in normal form is its own normal form. -/
theorem IsNormal.normalize_eq {p : FilePath} (h : p.IsNormal) (directory : FilePath) :
    normalize directory p = p := by
  obtain ⟨names, hnames, rfl⟩ := h
  rw [normalize, absolute, join, if_pos (isAbsolute_ofNames names), names_ofNames hnames]

theorem normalize_normalize (directory directory' p : FilePath) :
    normalize directory (normalize directory' p) = normalize directory' p :=
  (isNormal_normalize directory' p).normalize_eq directory

/-- Two paths in normal form that are the same path are written alike. -/
theorem IsNormal.same_iff {p q : FilePath} (hp : p.IsNormal) (hq : q.IsNormal) :
    p.same q = true ↔ p = q := by
  obtain ⟨ps, hps, rfl⟩ := hp
  obtain ⟨qs, hqs, rfl⟩ := hq
  rw [same, beq_iff_eq, parts_ofNames hps, parts_ofNames hqs]
  constructor
  · intro h
    have hnames : ps = qs :=
      List.map_injective_iff.2 (fun _ _ h => Part.name.inj h) (List.cons.inj h).2
    rw [hnames]
  · intro h
    have hnames : ps = qs := by rw [← names_ofNames hps, h, names_ofNames hqs]
    rw [hnames]

end FilePath

end LayeredConfig
