/-!
# Natural numbers

Powers of two and ten, and division to the nearest whole number.
-/

namespace LayeredConfig

/-- The power of two with exponent `n`. -/
def twoPow (n : Nat) : Nat := Nat.pow 2 n

/-- The power of ten with exponent `n`. -/
def tenPow (n : Nat) : Nat := Nat.pow 10 n

/-- The whole number nearest to `num / den`, an exact tie going to the even one. -/
def divNearest (num den : Nat) : Nat :=
  let q := num / den
  let r := num % den
  if den < 2 * r || (2 * r == den && q % 2 == 1) then q + 1 else q

end LayeredConfig
