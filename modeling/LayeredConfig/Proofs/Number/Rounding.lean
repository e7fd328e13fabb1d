import LayeredConfig.Number.Binary64
import Mathlib.Algebra.Order.Field.Power
import Mathlib.Data.Rat.Cast.Order
import Mathlib.Tactic.FieldSimp
import Mathlib.Tactic.Linarith
import Mathlib.Tactic.NormNum
import Mathlib.Tactic.Positivity
import Mathlib.Tactic.Ring

/-!
# Rounding to the nearest number

Values are compared in units of `2 ^ (-1074)`, the smallest positive number, so that every finite
number is an integer (`Binary64.scaled`). A value is rounded to `q · 2 ^ E`, where the exponent `E`
is as large as the value is and `q` is the nearest integer (`Rounds`). Larger values have no smaller
exponents, so rounding is monotone; a value is missed by half a unit of its exponent at most, and an
integer of 53 bits is not missed at all.
-/

namespace LayeredConfig

theorem cast_twoPow (n : Nat) : ((twoPow n : Nat) : ℚ) = 2 ^ n := Nat.cast_pow 2 n

theorem twoPow_succ (n : Nat) : twoPow (n + 1) = 2 * twoPow n := Nat.pow_succ'

theorem twoPow_pos (n : Nat) : 0 < twoPow n := Nat.pow_pos Nat.zero_lt_two

/-- A ratio as a whole number and a fraction. -/
theorem cast_ratio (num : Nat) {den : Nat} (h : 0 < den) :
    (num : ℚ) / den = (num / den : Nat) + (num % den : Nat) / den := by
  have hpos : (den : ℚ) ≠ 0 := by exact_mod_cast h.ne'
  have hcast : (num : ℚ) = den * (num / den : Nat) + (num % den : Nat) := by
    exact_mod_cast (Nat.div_add_mod num den).symm
  rw [← mul_div_cancel_left₀ ((num / den : Nat) : ℚ) hpos, ← add_div, ← hcast]

/-- The nearest integer is no further away than half a unit. -/
theorem divNearest_near (num : Nat) {den : Nat} (h : 0 < den) :
    |(divNearest num den : ℚ) - num / den| ≤ 1 / 2 := by
  have hpos : (0 : ℚ) < den := by exact_mod_cast h
  have hless : ((num % den : Nat) : ℚ) / den < 1 := by
    rw [div_lt_one hpos]
    exact_mod_cast Nat.mod_lt num h
  rw [cast_ratio num h, divNearest]
  split
  next hup =>
    have hhalf : den ≤ 2 * (num % den) := by
      rw [Bool.or_eq_true, Bool.and_eq_true, decide_eq_true_eq, beq_iff_eq] at hup
      omega
    have hhalf : (1 : ℚ) / 2 ≤ ((num % den : Nat) : ℚ) / den := by
      rw [div_le_div_iff₀ two_pos hpos, one_mul]
      exact_mod_cast (Nat.mul_comm 2 _ ▸ hhalf)
    rw [abs_le]
    push_cast
    constructor <;> linarith
  next hdown =>
    have hhalf : 2 * (num % den) ≤ den := by
      rw [Bool.not_eq_true, Bool.or_eq_false_iff, decide_eq_false_iff_not] at hdown
      omega
    have hhalf : ((num % den : Nat) : ℚ) / den ≤ 1 / 2 := by
      rw [div_le_div_iff₀ hpos two_pos, one_mul]
      exact_mod_cast (Nat.mul_comm 2 _ ▸ hhalf)
    have hnonneg : 0 ≤ ((num % den : Nat) : ℚ) / den := by positivity
    rw [abs_le]
    constructor <;> linarith

/-! ## Exponents -/

/-- A value, in units of the smallest positive number, is rounded to `q · 2 ^ E`. -/
structure Rounds (v : ℚ) (E q : Nat) : Prop where
  small : v < 2 ^ 53 * 2 ^ E
  /-- The exponent is no larger than it has to be. -/
  normal : E = 0 ∨ 2 ^ 52 * 2 ^ E ≤ v
  near : |q - v / 2 ^ E| ≤ 1 / 2

namespace Rounds

variable {v v' : ℚ} {E E' q q' : Nat}

theorem le_twoPow (h : Rounds v E q) : q ≤ twoPow 53 := by
  have hv : v / 2 ^ E < 2 ^ 53 := (div_lt_iff₀ (by positivity)).2 h.small
  have hq := (abs_le.1 h.near).2
  have hlt : (q : ℚ) < (twoPow 53 + 1 : Nat) := by
    push_cast [cast_twoPow]
    linarith
  exact Nat.lt_succ_iff.1 (by exact_mod_cast hlt)

theorem twoPow_le (h : Rounds v E q) : E = 0 ∨ twoPow 52 ≤ q := by
  refine h.normal.imp_right fun hlow => ?_
  have hv : 2 ^ 52 ≤ v / 2 ^ E := (le_div_iff₀ (by positivity)).2 hlow
  have hq := (abs_le.1 h.near).1
  have hlt : ((twoPow 52 : Nat) : ℚ) < (q + 1 : Nat) := by
    push_cast [cast_twoPow]
    linarith
  exact Nat.lt_succ_iff.1 (by exact_mod_cast hlt)

/-- The exponent of a value below `2 ^ 53` units of another exponent is not larger than that. -/
theorem exponent_le (h : Rounds v E q) (hv : v < 2 ^ 53 * 2 ^ E') : E ≤ E' := by
  rcases h.normal with rfl | hlow
  · exact Nat.zero_le _
  · have hpow : (2 : ℚ) ^ E < 2 ^ (E' + 1) := by
      rw [pow_succ]
      linarith
    exact Nat.lt_succ_iff.1 ((pow_lt_pow_iff_right₀ one_lt_two).1 hpow)

/-- A value is missed by half a unit of its exponent at most. -/
theorem error (h : Rounds v E q) (hv : v < 2 ^ 53 * 2 ^ E') : |q * 2 ^ E - v| ≤ 2 ^ E' / 2 := by
  have hpos : (0 : ℚ) < 2 ^ E := by positivity
  have hscale : (q * 2 ^ E - v : ℚ) = (q - v / 2 ^ E) * 2 ^ E := by
    rw [sub_mul, div_mul_cancel₀ _ hpos.ne']
  calc |q * 2 ^ E - v| = |q - v / 2 ^ E| * 2 ^ E := by rw [hscale, abs_mul, abs_of_pos hpos]
    _ ≤ 1 / 2 * 2 ^ E := mul_le_mul_of_nonneg_right h.near hpos.le
    _ ≤ 1 / 2 * 2 ^ E' := mul_le_mul_of_nonneg_left
        (pow_le_pow_right₀ one_le_two (h.exponent_le hv)) (by positivity)
    _ = 2 ^ E' / 2 := by ring

/-- Rounding is monotone. -/
theorem mono (h : Rounds v E q) (h' : Rounds v' E' q') (hv : v < v') :
    (q * 2 ^ E : ℚ) ≤ q' * 2 ^ E' := by
  have hE : E ≤ E' := h.exponent_le (hv.trans h'.small)
  rcases hE.lt_or_eq with hlt | rfl
  · -- The smaller value ends at or below the power of two where the other begins.
    have hq : (q : ℚ) ≤ 2 ^ 53 := by
      rw [← cast_twoPow]
      exact_mod_cast h.le_twoPow
    have hq' : (2 : ℚ) ^ 52 ≤ q' := by
      rw [← cast_twoPow]
      exact_mod_cast h'.twoPow_le.resolve_left (by omega)
    calc (q * 2 ^ E : ℚ) ≤ 2 ^ 53 * 2 ^ E := mul_le_mul_of_nonneg_right hq (by positivity)
      _ = 2 ^ 52 * 2 ^ (E + 1) := by ring
      _ ≤ 2 ^ 52 * 2 ^ E' :=
          mul_le_mul_of_nonneg_left (pow_le_pow_right₀ one_le_two hlt) (by positivity)
      _ ≤ q' * 2 ^ E' := mul_le_mul_of_nonneg_right hq' (by positivity)
  · have hless : v / 2 ^ E < v' / 2 ^ E := div_lt_div_of_pos_right hv (by positivity)
    have hlow := (abs_le.1 h.near).2
    have hhigh := (abs_le.1 h'.near).1
    have hq : (q : ℚ) < (q' + 1 : Nat) := by
      push_cast
      linarith
    have hq : q ≤ q' := Nat.lt_succ_iff.1 (by exact_mod_cast hq)
    exact mul_le_mul_of_nonneg_right (by exact_mod_cast hq) (by positivity)

/-- An integer of 53 bits, in units of some exponent, is its own rounding. -/
theorem exact {m k : Nat} (h : Rounds (m * 2 ^ k) E q) (hm : m < twoPow 53) :
    (q * 2 ^ E : ℚ) = m * 2 ^ k := by
  have hm : (m : ℚ) < 2 ^ 53 := by
    rw [← cast_twoPow]
    exact_mod_cast hm
  have hE : E ≤ k := h.exponent_le (mul_lt_mul_of_pos_right hm (by positivity))
  -- In units of the exponent that is used the value is an integer, and an integer that is no more
  -- than half away from it is the same.
  obtain ⟨j, rfl⟩ := Nat.exists_eq_add_of_le hE
  have hpos : (0 : ℚ) < 2 ^ E := by positivity
  have hv : (m * 2 ^ (E + j) : ℚ) / 2 ^ E = (m * 2 ^ j : Nat) := by
    push_cast
    rw [pow_add, div_eq_iff hpos.ne']
    ring
  have hnear := h.near
  rw [hv, abs_le] at hnear
  have hle : (q : ℚ) < (m * 2 ^ j + 1 : Nat) := by
    push_cast at hnear ⊢
    linarith [hnear.2]
  have hge : ((m * 2 ^ j : Nat) : ℚ) < (q + 1 : Nat) := by
    push_cast at hnear ⊢
    linarith [hnear.1]
  have hq : q = m * 2 ^ j := by
    have hle : q < m * 2 ^ j + 1 := by exact_mod_cast hle
    have hge : m * 2 ^ j < q + 1 := by exact_mod_cast hge
    omega
  rw [hq, pow_add]
  push_cast
  ring

end Rounds

namespace Binary64

/-! ## Bits -/

/-- The fields of a bit pattern that is put together from them. -/
theorem fields_ofFields (negative : Bool) {n : Nat} (h : n < twoPow 63) :
    (ofFields negative n).isNegative = negative ∧
      (ofFields negative n).exponentField = n / twoPow 52 ∧
      (ofFields negative n).fractionField = n % twoPow 52 := by
  have hbits : (ofFields negative n).bits.toNat = (if negative then twoPow 63 else 0) + n := by
    rw [ofFields, UInt64.toNat_ofNat']
    refine Nat.mod_eq_of_lt ?_
    simp only [twoPow, Nat.pow_eq] at h ⊢
    split <;> omega
  rw [isNegative, exponentField, fractionField, hbits]
  simp only [twoPow, Nat.pow_eq] at h ⊢
  cases negative
  · simp only [Bool.false_eq_true, if_false, decide_eq_false_iff_not]
    omega
  · simp only [if_true, decide_eq_true_eq]
    omega

theorem scaled_of_finite {x : Binary64} (hsign : x.isNegative = false)
    (hfinite : x.isInfinite = false) :
    x.scaled = x.magnitude.1 * twoPow (x.magnitude.2 + 1074).toNat := by
  simp only [scaled, hsign, hfinite, Bool.false_eq_true, if_false]

/-- The significand in a bit pattern is subnormal, normal, or the next power of two. -/
theorem divide_field {E q : Nat} (hq : q ≤ twoPow 53) (hnormal : E = 0 ∨ twoPow 52 ≤ q) :
    E = 0 ∧ (E * twoPow 52 + q) / twoPow 52 = 0 ∧ (E * twoPow 52 + q) % twoPow 52 = q ∨
    (E * twoPow 52 + q) / twoPow 52 = E + 1 ∧ (E * twoPow 52 + q) % twoPow 52 + twoPow 52 = q ∨
    q = twoPow 53 ∧ (E * twoPow 52 + q) / twoPow 52 = E + 2 ∧
      (E * twoPow 52 + q) % twoPow 52 = 0 := by
  simp only [twoPow, Nat.pow_eq] at hq hnormal ⊢
  omega

/-- The value of a bit pattern made of a significand and an exponent. A significand of fifty-four
bits is a power of two, and carries. -/
theorem scaled_ofFields {E q : Nat} (hq : q ≤ twoPow 53) (hnormal : E = 0 ∨ twoPow 52 ≤ q)
    (hE : E ≤ 2000) : (ofFields false (E * twoPow 52 + q)).scaled = q * twoPow E ∧
      (ofFields false (E * twoPow 52 + q)).isNaN = false := by
  have hsmall : E * twoPow 52 + q < twoPow 63 := by
    simp only [twoPow, Nat.pow_eq] at hq ⊢
    omega
  obtain ⟨hsign, hexponent, hfraction⟩ := fields_ofFields false hsmall
  have hfinite : (E * twoPow 52 + q) / twoPow 52 ≠ 2047 := by
    simp only [twoPow, Nat.pow_eq] at hq ⊢
    omega
  refine ⟨?_, by rw [isNaN, hexponent, beq_false_of_ne hfinite, Bool.false_and]⟩
  have hinfinite : (ofFields false (E * twoPow 52 + q)).isInfinite = false := by
    rw [isInfinite, hexponent, beq_false_of_ne hfinite, Bool.false_and]
  rw [scaled_of_finite hsign hinfinite, magnitude, hexponent, hfraction]
  rcases divide_field hq hnormal with ⟨rfl, hdiv, hmod⟩ | ⟨hdiv, hmod⟩ | ⟨rfl, hdiv, hmod⟩
  · rw [hdiv, hmod, beq_self_eq_true, if_pos rfl]
    rfl
  · have hplace : (((E + 1 : Nat) : Int) - 1075 + 1074).toNat = E := by omega
    simp only [hdiv, hmod, beq_false_of_ne (Nat.succ_ne_zero E), Bool.false_eq_true, if_false,
      hplace]
  · have hplace : (((E + 2 : Nat) : Int) - 1075 + 1074).toNat = E + 1 := by omega
    simp only [hdiv, hmod, beq_false_of_ne (Nat.succ_ne_zero (E + 1)), Bool.false_eq_true, if_false,
      hplace, Nat.zero_add]
    rw [twoPow_succ E, twoPow_succ 52]
    push_cast
    ring

theorem scaled_neg (x : Binary64) : x.neg.scaled = -x.scaled ∧ x.neg.isNaN = x.isNaN := by
  have hsmall : x.bits.toNat % twoPow 63 < twoPow 63 := Nat.mod_lt _ (twoPow_pos 63)
  obtain ⟨hsign, hexponent, hfraction⟩ := fields_ofFields (!x.isNegative) hsmall
  have hfields : x.bits.toNat % twoPow 63 / twoPow 52 = x.exponentField ∧
      x.bits.toNat % twoPow 63 % twoPow 52 = x.fractionField := by
    rw [exponentField, fractionField]
    simp only [twoPow, Nat.pow_eq]
    omega
  have hexponent : x.neg.exponentField = x.exponentField := hexponent.trans hfields.1
  have hfraction : x.neg.fractionField = x.fractionField := hfraction.trans hfields.2
  have hsign : x.neg.isNegative = !x.isNegative := hsign
  refine ⟨?_, by rw [isNaN, isNaN, hexponent, hfraction]⟩
  have hmagnitude : x.neg.magnitude = x.magnitude := by
    rw [magnitude, magnitude, hexponent, hfraction]
  have hinfinite : x.neg.isInfinite = x.isInfinite := by
    rw [isInfinite, isInfinite, hexponent, hfraction]
  rw [scaled, scaled, hsign, hmagnitude, hinfinite]
  cases x.isNegative
  · simp only [Bool.not_false, if_true, Bool.false_eq_true, if_false]
  · simp only [Bool.not_true, if_true, Bool.false_eq_true, if_false, neg_neg]

/-! ## Ratios -/

/-- Numerator and denominator of a ratio over a power of two. -/
def overTwoPow (num den : Nat) (e : Int) : Nat × Nat :=
  if e < 0 then (num * twoPow (-e).toNat, den) else (num, den * twoPow e.toNat)

theorem overTwoPow_eq (num : Nat) {den : Nat} (hden : 0 < den) (e : Int) :
    0 < (overTwoPow num den e).2 ∧
      ((overTwoPow num den e).1 : ℚ) / (overTwoPow num den e).2 = num / den / 2 ^ e := by
  have hpos : (den : ℚ) ≠ 0 := by exact_mod_cast hden.ne'
  rw [overTwoPow]
  split
  next he =>
    obtain ⟨n, rfl⟩ : ∃ n : Nat, e = -n := ⟨(-e).toNat, by omega⟩
    refine ⟨hden, ?_⟩
    dsimp only
    rw [neg_neg, Int.toNat_natCast]
    push_cast [cast_twoPow]
    rw [zpow_neg, zpow_natCast]
    field_simp
  next he =>
    obtain ⟨n, rfl⟩ : ∃ n : Nat, e = n := ⟨e.toNat, by omega⟩
    refine ⟨Nat.mul_pos hden (twoPow_pos _), ?_⟩
    dsimp only
    rw [Int.toNat_natCast]
    push_cast [cast_twoPow]
    rw [zpow_natCast]
    field_simp

theorem log2_bounds {n : Nat} (h : n ≠ 0) :
    (2 : ℚ) ^ (Nat.log2 n : Int) ≤ n ∧ (n : ℚ) < 2 ^ ((Nat.log2 n : Int) + 1) := by
  constructor
  · rw [zpow_natCast]
    exact_mod_cast Nat.log2_self_le h
  · rw [← Nat.cast_succ, zpow_natCast]
    exact_mod_cast Nat.lt_log2_self

/-- A ratio lies between powers of two. -/
theorem ratio_bounds {num den : Nat} (hnum : num ≠ 0) (hden : den ≠ 0) :
    (2 : ℚ) ^ ((Nat.log2 num : Int) - Nat.log2 den - 1) < num / den ∧
      (num : ℚ) / den < 2 ^ ((Nat.log2 num : Int) - Nat.log2 den + 1) := by
  obtain ⟨hlow, hhigh⟩ := log2_bounds hnum
  obtain ⟨hlow', hhigh'⟩ := log2_bounds hden
  have hpos : (0 : ℚ) < den := by exact_mod_cast Nat.pos_of_ne_zero hden
  constructor
  · rw [lt_div_iff₀ hpos]
    calc (2 : ℚ) ^ ((Nat.log2 num : Int) - Nat.log2 den - 1) * den
        < 2 ^ ((Nat.log2 num : Int) - Nat.log2 den - 1) * 2 ^ ((Nat.log2 den : Int) + 1) :=
          mul_lt_mul_of_pos_left hhigh' (by positivity)
      _ = 2 ^ (Nat.log2 num : Int) := by
          rw [← zpow_add₀ two_ne_zero]
          congr 1
          ring
      _ ≤ num := hlow
  · rw [div_lt_iff₀ hpos]
    calc (num : ℚ) < 2 ^ ((Nat.log2 num : Int) + 1) := hhigh
      _ = 2 ^ ((Nat.log2 num : Int) - Nat.log2 den + 1) * 2 ^ (Nat.log2 den : Int) := by
          rw [← zpow_add₀ two_ne_zero]
          congr 1
          ring
      _ ≤ 2 ^ ((Nat.log2 num : Int) - Nat.log2 den + 1) * den :=
          mul_le_mul_of_nonneg_left hlow' (by positivity)

/-- The exponent of a ratio: the least, but for the smallest of all, that leaves 53 bits. -/
def ratioExponent (num den : Nat) : Int :=
  let low : Int := max ((Nat.log2 num : Int) - (Nat.log2 den : Int) - 53) (-1074)
  if twoPow 53 ≤ (overTwoPow num den low).1 / (overTwoPow num den low).2 then low + 1 else low

theorem ratioExponent_spec {num den : Nat} (hnum : num ≠ 0) (hden : den ≠ 0) :
    -1074 ≤ ratioExponent num den ∧ (num : ℚ) / den < 2 ^ 53 * 2 ^ ratioExponent num den ∧
      (ratioExponent num den = -1074 ∨ 2 ^ 52 * 2 ^ ratioExponent num den ≤ (num : ℚ) / den) := by
  obtain ⟨hlow, hhigh⟩ := ratio_bounds hnum hden
  rw [ratioExponent]
  generalize (Nat.log2 num : Int) - (Nat.log2 den : Int) = k at hlow hhigh ⊢
  generalize hmax : max (k - 53) (-1074 : Int) = low
  obtain ⟨hpos, hquotient⟩ := overTwoPow_eq num (Nat.pos_of_ne_zero hden) low
  have hpow : (0 : ℚ) < 2 ^ low := by positivity
  have hless : k - 53 ≤ low := hmax ▸ le_max_left _ _
  have hleast : -1074 ≤ low := hmax ▸ le_max_right _ _
  have hsucc : (2 : ℚ) ^ (low + 1) = 2 ^ low * 2 := zpow_add_one₀ two_ne_zero low
  -- With this exponent there are 53 bits left, or 54, and then the next exponent is taken.
  split
  next hwide =>
    have hwide : (2 : ℚ) ^ 53 ≤ num / den / 2 ^ low := by
      rw [← hquotient, le_div_iff₀ (by exact_mod_cast hpos), ← cast_twoPow]
      exact_mod_cast (Nat.le_div_iff_mul_le hpos).1 hwide
    rw [le_div_iff₀ hpow] at hwide
    refine ⟨by omega, ?_, .inr (by rw [hsucc]; linarith)⟩
    calc (num : ℚ) / den < 2 ^ (k + 1) := hhigh
      _ ≤ 2 ^ ((53 : Int) + (low + 1)) := zpow_le_zpow_right₀ one_le_two (by omega)
      _ = 2 ^ 53 * 2 ^ (low + 1) := by rw [zpow_add₀ two_ne_zero]; norm_cast
  next hnarrow =>
    have hnarrow : (num : ℚ) / den / 2 ^ low < 2 ^ 53 := by
      rw [← hquotient, div_lt_iff₀ (by exact_mod_cast hpos), ← cast_twoPow]
      exact_mod_cast (Nat.div_lt_iff_lt_mul hpos).1 (Nat.lt_of_not_le hnarrow)
    refine ⟨hleast, (div_lt_iff₀ hpow).1 hnarrow, ?_⟩
    rcases max_choice (k - 53) (-1074 : Int) with hchoice | hchoice
    · refine .inr (le_of_lt ?_)
      calc (2 : ℚ) ^ 52 * 2 ^ low = 2 ^ ((52 : Int) + low) := by
            rw [zpow_add₀ two_ne_zero]; norm_cast
        _ ≤ 2 ^ (k - 1) := zpow_le_zpow_right₀ one_le_two (by omega)
        _ < num / den := hlow
    · exact .inl (hmax.symm.trans hchoice)

/-- The significand of a ratio. -/
def ratioSignificand (num den : Nat) : Nat :=
  divNearest (overTwoPow num den (ratioExponent num den)).1
    (overTwoPow num den (ratioExponent num den)).2

theorem rounds_ratio {num den : Nat} (hnum : num ≠ 0) (hden : den ≠ 0) :
    ∃ E : Nat, ratioExponent num den = E - 1074 ∧
      Rounds (num / den * 2 ^ 1074) E (ratioSignificand num den) := by
  obtain ⟨hleast, hbelow, habove⟩ := ratioExponent_spec hnum hden
  obtain ⟨hpos, hvalue⟩ := overTwoPow_eq num (Nat.pos_of_ne_zero hden) (ratioExponent num den)
  have hnear := divNearest_near (overTwoPow num den (ratioExponent num den)).1 hpos
  rw [hvalue] at hnear
  refine ⟨(ratioExponent num den + 1074).toNat, by omega, ?_⟩
  rw [ratioSignificand]
  generalize divNearest _ _ = q at hnear ⊢
  generalize ratioExponent num den = e at hleast hbelow habove hnear ⊢
  -- In units of the smallest positive number, exponents start from zero.
  obtain ⟨E, rfl⟩ : ∃ E : Nat, e = E - 1074 := ⟨(e + 1074).toNat, by omega⟩
  have hplace : ((E : Int) - 1074 + 1074).toNat = E := by omega
  have hunit : (2 : ℚ) ^ ((E : Int) - 1074) = 2 ^ E / 2 ^ 1074 := by
    rw [zpow_sub₀ two_ne_zero, zpow_natCast]
    norm_cast
  have hpos : (0 : ℚ) < 2 ^ 1074 := by positivity
  rw [hplace]
  rw [hunit] at hbelow habove hnear
  generalize (2 : ℚ) ^ 1074 = unit at hbelow habove hnear hpos ⊢
  refine ⟨?_, ?_, ?_⟩
  · rwa [← mul_div_assoc, lt_div_iff₀ hpos] at hbelow
  · refine habove.imp (fun hleast => by omega) fun hlow => ?_
    rwa [← mul_div_assoc, div_le_iff₀ hpos] at hlow
  · rwa [div_div_eq_mul_div] at hnear

/-- The number is that to which the value is rounded. -/
def IsNearest (x : Binary64) (v : ℚ) : Prop :=
  x.isNaN = false ∧ ∃ E q, Rounds v E q ∧ (x.scaled : ℚ) = q * 2 ^ E

theorem isNearest_ofFields {v : ℚ} {E q : Nat} (h : Rounds v E q) (hE : E ≤ 2000) :
    IsNearest (ofFields false (E * twoPow 52 + q)) v := by
  obtain ⟨hscaled, hnumber⟩ := scaled_ofFields h.le_twoPow h.twoPow_le hE
  refine ⟨hnumber, E, q, h, ?_⟩
  rw [hscaled]
  push_cast [cast_twoPow]
  rfl

theorem ofRatio_zero (den : Nat) : ofRatio false 0 den = ofFields false 0 := rfl

theorem ofRatio_eq {num : Nat} (hnum : num ≠ 0) (den : Nat) :
    ofRatio false num den =
      if 2047 * twoPow 52 ≤
          (ratioExponent num den + 1074).toNat * twoPow 52 + ratioSignificand num den then
        infinity false
      else
        ofFields false
          ((ratioExponent num den + 1074).toNat * twoPow 52 + ratioSignificand num den) := by
  rw [ofRatio, beq_false_of_ne hnum, if_neg Bool.false_ne_true]
  rfl

/-- A ratio, unless it is too large, is rounded to the nearest number. -/
theorem isNearest_ofRatio (num : Nat) {den K : Nat} (hden : den ≠ 0) (hK : K ≤ 2000)
    (hsmall : (num : ℚ) / den * 2 ^ 1074 < 2 ^ 53 * 2 ^ K) :
    IsNearest (ofRatio false num den) (num / den * 2 ^ 1074) := by
  by_cases hnum : num = 0
  · have hrounds : Rounds ((num : ℚ) / den * 2 ^ 1074) 0 0 := by
      rw [hnum, Nat.cast_zero, zero_div, zero_mul]
      exact ⟨by norm_num, .inl rfl, by norm_num⟩
    have hnearest := isNearest_ofFields hrounds (Nat.zero_le 2000)
    rwa [Nat.zero_mul, Nat.add_zero, ← ofRatio_zero den, ← hnum] at hnearest
  · obtain ⟨E, hexponent, hrounds⟩ := rounds_ratio hnum hden
    have hE := (hrounds.exponent_le hsmall).trans hK
    have hplace : ((E : Int) - 1074 + 1074).toNat = E := by omega
    have hfinite : ¬ 2047 * twoPow 52 ≤ E * twoPow 52 + ratioSignificand num den := by
      have hq := hrounds.le_twoPow
      simp only [twoPow, Nat.pow_eq] at hq ⊢
      omega
    rw [ofRatio_eq hnum, hexponent, hplace, if_neg hfinite]
    exact isNearest_ofFields hrounds hE

namespace IsNearest

variable {x y : Binary64} {v u : ℚ}

/-- Rounding is monotone. -/
theorem scaled_le (hx : IsNearest x v) (hy : IsNearest y u) (h : v < u) :
    x.scaled ≤ y.scaled := by
  obtain ⟨-, E, q, hrounds, hscaled⟩ := hx
  obtain ⟨-, E', q', hrounds', hscaled'⟩ := hy
  have hle := hrounds.mono hrounds' h
  rw [← hscaled, ← hscaled'] at hle
  exact_mod_cast hle

theorem nonneg (hx : IsNearest x v) : 0 ≤ x.scaled := by
  obtain ⟨-, E, q, -, hscaled⟩ := hx
  have hle : (0 : ℚ) ≤ x.scaled := by
    rw [hscaled]
    positivity
  exact_mod_cast hle

/-- A value is missed by half a unit of its exponent at most. -/
theorem error (hx : IsNearest x v) {K : Nat} (hv : v < 2 ^ 53 * 2 ^ K) :
    |x.scaled - v| ≤ 2 ^ K / 2 := by
  obtain ⟨-, E, q, hrounds, hscaled⟩ := hx
  rw [hscaled]
  exact hrounds.error hv

/-- An integer of 53 bits, in units of some exponent, is its own rounding. -/
theorem exact {m k : Nat} (hx : IsNearest x (m * 2 ^ k)) (hm : m < twoPow 53) :
    (x.scaled : ℚ) = m * 2 ^ k := by
  obtain ⟨-, E, q, hrounds, hscaled⟩ := hx
  exact hscaled.trans (hrounds.exact hm)

end IsNearest

/-- The sum of two numbers, unless it is negative or too large, is rounded to the nearest. -/
theorem isNearest_add {x y : Binary64} {K : Nat} (hnonneg : 0 ≤ x.scaled + y.scaled) (hK : K ≤ 2000)
    (hsmall : ((x.scaled + y.scaled : Int) : ℚ) < 2 ^ 53 * 2 ^ K) :
    IsNearest (x.add y) (x.scaled + y.scaled : Int) := by
  obtain ⟨n, hn⟩ := Int.eq_ofNat_of_zero_le hnonneg
  have hvalue : (n : ℚ) / (twoPow 1074 : Nat) * 2 ^ 1074 = n := by
    rw [cast_twoPow, div_mul_cancel₀ _ (pow_ne_zero _ two_ne_zero)]
  rw [hn, Int.cast_natCast, ← hvalue] at hsmall
  have hnearest := isNearest_ofRatio n (twoPow_pos 1074).ne' hK hsmall
  rw [hvalue] at hnearest
  rw [add, ofScaled, hn, Int.natAbs_natCast, decide_eq_false (Int.natCast_nonneg n).not_gt,
    Int.cast_natCast]
  exact hnearest

end Binary64

end LayeredConfig
