import LayeredConfig.Number.Natural

/-!
# Binary floating-point numbers

`Binary64` is an IEEE 754 double kept as its bit pattern, so that every operation below is exact
arithmetic on natural numbers and integers. A finite number is `m · 2 ^ e` (`magnitude`), and
`ofRatio` is the one place where rounding happens: to the nearest number, ties to the even one.

Two notions of sameness are in use. Equality of bit patterns is `=`. `same` is the equality of
configuration scalars: a NaN is the same as any NaN, and the two zeros are the same.
-/

namespace LayeredConfig

/-- A double-precision number, by its bit pattern. -/
structure Binary64 where
  /-- Sign bit, eleven exponent bits, fifty-two fraction bits. -/
  bits : UInt64
deriving DecidableEq, Repr, Inhabited

namespace Binary64

/-! ## Fields and classes -/

/-- The sign bit is set. -/
def isNegative (x : Binary64) : Bool := decide (twoPow 63 ≤ x.bits.toNat)

/-- The biased exponent. -/
def exponentField (x : Binary64) : Nat := x.bits.toNat / twoPow 52 % twoPow 11

/-- The fraction bits. -/
def fractionField (x : Binary64) : Nat := x.bits.toNat % twoPow 52

/-- Neither a NaN nor an infinity. -/
def isFinite (x : Binary64) : Bool := x.exponentField != 2047

/-- Not a number. -/
def isNaN (x : Binary64) : Bool := x.exponentField == 2047 && x.fractionField != 0

/-- One of the two infinities. -/
def isInfinite (x : Binary64) : Bool := x.exponentField == 2047 && x.fractionField == 0

/-- One of the two zeros. -/
def isZero (x : Binary64) : Bool := x.exponentField == 0 && x.fractionField == 0

/-- The number with bit pattern `n` below the sign bit. -/
def ofFields (negative : Bool) (n : Nat) : Binary64 :=
  ⟨UInt64.ofNat ((if negative then twoPow 63 else 0) + n)⟩

/-- Zero. -/
def zero : Binary64 := ofFields false 0

/-- Positive or negative infinity. -/
def infinity (negative : Bool) : Binary64 := ofFields negative (2047 * twoPow 52)

/-- The quiet NaN. -/
def nan : Binary64 := ofFields false (2047 * twoPow 52 + twoPow 51)

/-- Equality of scalars: NaN is the same as NaN, and zero as negative zero. -/
def same (x y : Binary64) : Bool :=
  x == y || (x.isNaN && y.isNaN) || (x.isZero && y.isZero)

/-! ## Values -/

/-- The absolute value of a finite number is `m · 2 ^ e` for this `(m, e)`. -/
def magnitude (x : Binary64) : Nat × Int :=
  if x.exponentField == 0 then (x.fractionField, -1074)
  else (x.fractionField + twoPow 52, (x.exponentField : Int) - 1075)

/-- The value times `2 ^ 1074`, an integer for every finite number. An infinity lies beyond every
finite number. -/
def scaled (x : Binary64) : Int :=
  let n : Int :=
    if x.isInfinite then twoPow 2098
    else
      let (m, e) := x.magnitude
      (m : Int) * twoPow (e + 1074).toNat
  if x.isNegative then -n else n

/-- The nearest number to `num / den`, an exact tie going to the even fraction. -/
def ofRatio (negative : Bool) (num den : Nat) : Binary64 :=
  if num == 0 then ofFields negative 0
  else
    -- `num / den` lies between `2 ^ (k - 1)` and `2 ^ (k + 1)`.
    let k : Int := (Nat.log2 num : Int) - (Nat.log2 den : Int)
    let quotient (e : Int) : Nat × Nat :=
      if e < 0 then (num * twoPow (-e).toNat, den) else (num, den * twoPow e.toNat)
    let low : Int := max (k - 53) (-1074)
    let (n₀, d₀) := quotient low
    let e := if twoPow 53 ≤ n₀ / d₀ then low + 1 else low
    let (n, d) := quotient e
    -- A significand of fifty-four bits carries into the exponent by itself.
    let field := (e + 1074).toNat * twoPow 52 + divNearest n d
    if 2047 * twoPow 52 ≤ field then infinity negative else ofFields negative field

/-- The nearest number to an integer. -/
def ofInt (i : Int) : Binary64 := ofRatio (decide (i < 0)) i.natAbs 1

/-- The nearest number to `n / 2 ^ 1074`. -/
def ofScaled (n : Int) : Binary64 := ofRatio (decide (n < 0)) n.natAbs (twoPow 1074)

/-- Negation flips the sign bit. -/
def neg (x : Binary64) : Binary64 := ofFields (!x.isNegative) (x.bits.toNat % twoPow 63)

/-- The correctly rounded sum of two finite numbers. -/
def add (x y : Binary64) : Binary64 := ofScaled (x.scaled + y.scaled)

/-- The correctly rounded product. An infinite factor makes the product infinite. -/
def mul (x y : Binary64) : Binary64 :=
  let negative := x.isNegative != y.isNegative
  if x.isInfinite || y.isInfinite then infinity negative
  else ofRatio negative (x.scaled * y.scaled).natAbs (twoPow 2148)

/-- `x < y`; false if either is a NaN. -/
def lt (x y : Binary64) : Bool :=
  !x.isNaN && !y.isNaN && decide (x.scaled < y.scaled)

end Binary64

end LayeredConfig
