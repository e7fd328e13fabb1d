import LayeredConfig.Text.Blank
import Mathlib.Data.List.Basic

/-!
# Trimming

Trimming takes white space off both ends of a text (`trimBoth_spec`), and leaves a text alone that
has none there (`Tight.trimBoth_eq`).
-/

namespace LayeredConfig.Text

/-- There is nothing but white space. -/
def Blank (s : List Char) : Prop := ∀ c ∈ s, isBlank c = true

instance (s : List Char) : Decidable (Blank s) := List.decidableBAll _ s

/-- There is no white space at either end. -/
structure Tight (s : List Char) : Prop where
  head : ∀ c ∈ s.head?, isBlank c = false
  last : ∀ c ∈ s.getLast?, isBlank c = false

theorem blank_takeWhile (s : List Char) : Blank (s.takeWhile isBlank) :=
  List.all_eq_true.1 List.all_takeWhile

theorem Blank.reverse {s : List Char} (h : Blank s) : Blank s.reverse :=
  fun c hc => h c (List.mem_reverse.1 hc)

/-- White space has no other character. -/
theorem Blank.notMem {s : List Char} (h : Blank s) {c : Char} (hc : isBlank c = false) :
    c ∉ s := fun hmem => by
  rw [h c hmem] at hc
  cases hc

/-- White space is dropped up to what does not begin with it. -/
theorem Blank.dropWhile_append {a s : List Char} (ha : Blank a)
    (hs : ∀ c ∈ s.head?, isBlank c = false) : (a ++ s).dropWhile isBlank = s := by
  rw [List.dropWhile_append_of_pos ha]
  cases s with
  | nil => rfl
  | cons c rest => exact List.dropWhile_cons_of_neg (by rw [hs c rfl]; exact Bool.false_ne_true)

theorem head?_dropWhile (s : List Char) : ∀ c ∈ (s.dropWhile isBlank).head?, isBlank c = false := by
  intro c hc
  have hnot := List.head?_dropWhile_not isBlank s
  rw [Option.mem_def.1 hc] at hnot
  exact hnot

/-- Trimming takes white space off both ends, and leaves none there. -/
theorem trimBoth_spec (s : List Char) :
    ∃ a b, s = a ++ trimBoth s ++ b ∧ Blank a ∧ Blank b ∧ Tight (trimBoth s) := by
  have hstart : s = s.takeWhile isBlank ++ trimStart s := List.takeWhile_append_dropWhile.symm
  have hend : trimStart s = trimBoth s ++ ((trimStart s).reverse.takeWhile isBlank).reverse := by
    rw [trimBoth, trimEnd, ← List.reverse_append, List.takeWhile_append_dropWhile,
      List.reverse_reverse]
  refine ⟨_, _, ?_, blank_takeWhile s, (blank_takeWhile (trimStart s).reverse).reverse, ?_, ?_⟩
  · rw [List.append_assoc, ← hend]
    exact hstart
  · intro c hc
    refine head?_dropWhile s c ?_
    change c ∈ (trimStart s).head?
    rw [hend, List.head?_append, Option.mem_def.1 hc]
    rfl
  · intro c hc
    refine head?_dropWhile (trimStart s).reverse c ?_
    rw [trimBoth, trimEnd, List.getLast?_reverse] at hc
    exact hc

/-- Trimming keeps what is no white space. -/
theorem mem_trimBoth {s : List Char} {c : Char} (hc : c ∈ s) (hblank : isBlank c = false) :
    c ∈ trimBoth s := by
  obtain ⟨a, b, hs, ha, hb, -⟩ := trimBoth_spec s
  rw [hs, List.mem_append, List.mem_append] at hc
  rcases hc with (hc | hc) | hc
  · exact absurd hc (ha.notMem hblank)
  · exact hc
  · exact absurd hc (hb.notMem hblank)

/-- A text without white space at its ends is left alone. -/
theorem Tight.trimBoth_eq {s : List Char} (h : Tight s) : trimBoth s = s := by
  have hkept {s : List Char} (hs : ∀ c ∈ s.head?, isBlank c = false) : s.dropWhile isBlank = s :=
    Blank.dropWhile_append (a := []) nofun hs
  rw [trimBoth, trimStart, hkept h.head, trimEnd, hkept (s := s.reverse), List.reverse_reverse]
  rw [List.head?_reverse]
  exact h.last

/-- Nothing is left of a text exactly when it is white space. -/
theorem trimBoth_eq_nil {s : List Char} : trimBoth s = [] ↔ Blank s := by
  obtain ⟨a, b, hs, ha, hb, htight⟩ := trimBoth_spec s
  constructor
  · intro hnil c hc
    rw [hs, hnil, List.append_nil, List.mem_append] at hc
    exact hc.elim (ha c) (hb c)
  · intro hblank
    cases hkept : trimBoth s with
    | nil => rfl
    | cons c rest =>
      rw [hkept] at hs htight
      have hc : isBlank c = true := hblank c (by simp [hs])
      cases hc.symm.trans (htight.head c rfl)

/-- A text with anything but white space is not empty when it is trimmed. -/
theorem trimBoth_ne_nil {s : List Char} {c : Char} (hc : c ∈ s) (hblank : isBlank c = false) :
    trimBoth s ≠ [] :=
  List.ne_nil_of_mem (mem_trimBoth hc hblank)

/-- No digit is white space. -/
theorem isBlank_of_isDigit {c : Char} (h : c.isDigit = true) : isBlank c = false := by
  obtain ⟨hlow, hhigh⟩ : '0'.val ≤ c.val ∧ c.val ≤ '9'.val := by
    simpa only [Char.isDigit, Bool.and_eq_true, decide_eq_true_eq] using h
  have hrange : 48 ≤ c.toNat ∧ c.toNat ≤ 57 :=
    ⟨UInt32.le_iff_toNat_le.1 hlow, UInt32.le_iff_toNat_le.1 hhigh⟩
  simp only [isBlank, Bool.or_eq_false_iff, Bool.and_eq_false_iff, decide_eq_false_iff_not,
    beq_eq_false_iff_ne]
  omega

end LayeredConfig.Text
