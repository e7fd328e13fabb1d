import LayeredConfig.Number.Binary64

/-!
# Decimal numerals of binary numbers

A finite number is written with the fewest significant digits that read back as the same number,
and of the shortest numerals with the one nearest to it (`Decimal.shortest`). How the digits are
laid out (where positional notation ends, how an exponent is written, what stands for a NaN) is a
`Layout`; each format that prints numbers has one.

`Decimal.read?` reads a numeral exactly and rounds once.
-/

namespace LayeredConfig

/-- The number `significand · 10 ^ exponent`. -/
structure Decimal where
  significand : Nat
  exponent : Int
deriving DecidableEq, Repr

namespace Decimal

/-- How many decimal digits `n` has; one for zero. -/
def digitCount (n : Nat) : Nat := (Nat.toDigits 10 n).length

/-- Drop trailing zeros of the significand; at most `fuel` of them. -/
def trim : Nat → Decimal → Decimal
  | 0, d => d
  | fuel + 1, d =>
    if d.significand != 0 && d.significand % 10 == 0 then
      trim fuel ⟨d.significand / 10, d.exponent + 1⟩
    else d

/-- The open-ended search for the shortest numeral: `digits` more digits may be tried, the value is
`num / den`, and the numbers that round to it lie between `low / den` and `high / den`, ends
included if `closed`. The value has `point` digits before the decimal point. -/
def search (num den low high : Nat) (closed : Bool) (point : Int) : (digits tried : Nat) → Decimal
  | 0, tried => ⟨num / den, tried⟩
  | digits + 1, tried =>
    let g : Int := point - (tried + 1)
    -- One step of the grid is `up / down`.
    let up : Nat := if g < 0 then 1 else tenPow g.toNat
    let down : Nat := if g < 0 then tenPow (-g).toNat else 1
    let c := num * down / (den * up)
    let inside (d : Nat) : Bool :=
      let here := d * up * den
      let lo := low * down
      let hi := high * down
      if closed then decide (lo ≤ here) && decide (here ≤ hi)
      else decide (lo < here) && decide (here < hi)
    let below := num * down - c * up * den
    let above := (c + 1) * up * den - num * down
    let pick : Option Nat :=
      match inside c, inside (c + 1) with
      | false, false => none
      | true, false => some c
      | false, true => some (c + 1)
      | true, true =>
        if below < above || (below == above && c % 2 == 0) then some c else some (c + 1)
    match pick with
    | some d => trim 20 ⟨d, g⟩
    | none => search num den low high closed point digits (tried + 1)

/-- The shortest numeral that reads back as the absolute value of a finite number. -/
def shortest (x : Binary64) : Decimal :=
  let (m, e) := x.magnitude
  if m == 0 then ⟨0, 0⟩
  else
    -- In units of a quarter of the last place; below a power of two the gap is half as wide.
    let narrow := m == twoPow 52 && decide (-1074 < e)
    let f : Int := e - 2
    let up : Nat := if f < 0 then 1 else twoPow f.toNat
    let den : Nat := if f < 0 then twoPow (-f).toNat else 1
    let num := 4 * m * up
    let low := (if narrow then 4 * m - 1 else 4 * m - 2) * up
    let high := (4 * m + 2) * up
    let point : Int :=
      if den ≤ num then (digitCount (num / den) : Int)
      else 1 - (digitCount ((den + num - 1) / num - 1) : Int)
    search num den low high (m % 2 == 0) point 17 0

/-! ## Layouts -/

/-- How a numeral is laid out. A number whose decimal point stands after `p` of its digits is
written positionally iff `least ≤ p ≤ greatest`. -/
structure Layout where
  least : Int
  greatest : Int
  /-- A positive exponent carries a plus sign. -/
  plus : Bool
  nan : String
  infinity : String
  negativeInfinity : String

/-- The numeral of a number in the given layout. A positional numeral always has a decimal point. -/
def Layout.write (l : Layout) (x : Binary64) : String :=
  if x.isNaN then l.nan
  else if x.isInfinite then (if x.isNegative then l.negativeInfinity else l.infinity)
  else
    let d := shortest x
    let digits := Nat.toDigits 10 d.significand
    let point : Int := digits.length + d.exponent
    let zeros (n : Nat) : List Char := List.replicate n '0'
    let body : List Char :=
      if d.significand == 0 then ['0', '.', '0']
      else if l.least ≤ point ∧ point ≤ l.greatest then
        if 0 ≤ d.exponent then digits ++ zeros d.exponent.toNat ++ ['.', '0']
        else if 0 < point then
          digits.take point.toNat ++ '.' :: digits.drop point.toNat
        else '0' :: '.' :: (zeros (-point).toNat ++ digits)
      else
        let fraction := match digits with
          | [] => []
          | [c] => [c]
          | c :: rest => c :: '.' :: rest
        let e := point - 1
        let sign := if e < 0 then ['-'] else if l.plus then ['+'] else []
        fraction ++ 'e' :: (sign ++ Nat.toDigits 10 e.natAbs)
    String.ofList (if x.isNegative then '-' :: body else body)

/-! ## Reading -/

/-- A run of decimal digits and what follows it. -/
def digitRun (s : List Char) : List Char × List Char :=
  (s.takeWhile Char.isDigit, s.dropWhile Char.isDigit)

/-- The value of a run of decimal digits. -/
def valueOf (digits : List Char) : Nat :=
  digits.foldl (fun n c => n * 10 + (c.toNat - 48)) 0

/-- An exponent part: nothing, or `e`, an optional sign and digits. -/
def readExponent? : List Char → Option Int
  | [] => some 0
  | c :: rest =>
    if c == 'e' || c == 'E' then
      let (negative, digits) := match rest with
        | '-' :: r => (true, r)
        | '+' :: r => (false, r)
        | r => (false, r)
      if digits.isEmpty || !digits.all Char.isDigit then none
      else
        let n : Int := valueOf digits
        some (if negative then -n else n)
    else none

/-- The number nearest to `significand · 10 ^ exponent`. Exponents beyond every double are not
multiplied out. -/
def toBinary (negative : Bool) (significand : Nat) (exponent : Int) : Binary64 :=
  if significand == 0 then Binary64.ofFields negative 0
  else
    let point : Int := digitCount significand + exponent
    if 400 < point then Binary64.infinity negative
    else if point < -400 then Binary64.ofFields negative 0
    else if exponent < 0 then Binary64.ofRatio negative significand (tenPow (-exponent).toNat)
    else Binary64.ofRatio negative (significand * tenPow exponent.toNat) 1

/-- Read a numeral: an optional sign, digits with an optional point among or around them (at least
one digit), and an optional exponent. Numerals too large for a double read as infinities. -/
def read? (text : String) : Option Binary64 :=
  let (negative, body) := match text.toList with
    | '-' :: r => (true, r)
    | '+' :: r => (false, r)
    | r => (false, r)
  let (whole, rest) := digitRun body
  let (fraction, tail) := match rest with
    | '.' :: r => digitRun r
    | r => ([], r)
  if whole.isEmpty && fraction.isEmpty then none
  else
    (readExponent? tail).map fun e =>
      toBinary negative (valueOf (whole ++ fraction)) (e - fraction.length)

end Decimal

end LayeredConfig
