import LayeredConfig.Number.Decimal
import LayeredConfig.Text.Lower

/-!
# Times

An `Instant` is a whole number of nanoseconds since the start of 1970, before it if negative.
`epochSeconds` is the double that ledgers keep of it, and `calendarText` its date and time of day.
A `Span` of time is read from texts such as `30d`.
-/

namespace LayeredConfig

/-- A point in time, in nanoseconds since the start of 1970. -/
structure Instant where
  nanoseconds : Int
deriving DecidableEq, Repr, Inhabited

namespace Instant

/-- How many nanoseconds a second has. -/
def perSecond : Nat := 1000000000

/-- The instant so many seconds and nanoseconds after the start of 1970. -/
def ofSeconds (seconds : Int) (nanoseconds : Int) : Instant := ⟨seconds * perSecond + nanoseconds⟩

/-- Whole seconds, rounded down. -/
def seconds (t : Instant) : Int := Int.fdiv t.nanoseconds perSecond

/-- Nanoseconds beyond the whole seconds. -/
def subsecond (t : Instant) : Nat := (Int.fmod t.nanoseconds perSecond).toNat

/-- Seconds as a double: the sum of the two doubles nearest to the whole seconds and to the
fraction of the distance from 1970. -/
def epochSeconds (t : Instant) : Binary64 :=
  let n := t.nanoseconds.natAbs
  let whole := Binary64.ofRatio false (n / perSecond) 1
  let fraction := Binary64.ofRatio false (n % perSecond) perSecond
  let sum := whole.add fraction
  if t.nanoseconds < 0 then sum.neg else sum

/-! ## The calendar -/

/-- Year, month and day of a day counted from the first of January 1970. Years are counted here
from the first of March, so that a leap day ends its year; a whole cycle has 146097 days. -/
def dateOfDay (day : Int) : Int × Nat × Nat :=
  let z := day + 719468
  let era := Int.fdiv z 146097
  let d := (Int.fmod z 146097).toNat
  let year := (d - d / 1460 + d / 36524 - d / 146096) / 365
  let rest := d - (365 * year + year / 4 - year / 100)
  let m := (5 * rest + 2) / 153
  let month := if m < 10 then m + 3 else m - 9
  let y : Int := year + era * 400
  (if month ≤ 2 then y + 1 else y, month, rest - (153 * m + 2) / 5 + 1)

/-- A number with at least `width` digits. -/
def padded (width n : Nat) : String :=
  let digits := Nat.toDigits 10 n
  String.ofList (List.replicate (width - digits.length) '0' ++ digits)

/-- A year with at least four digits, signed outside of these. -/
def yearText (y : Int) : String :=
  if y < 0 then "-" ++ padded 4 y.natAbs
  else if 9999 < y then "+" ++ padded 4 y.toNat
  else padded 4 y.toNat

/-- Date and time of day in universal time, such as `2001-09-09 01:46:40`. -/
def calendarText (t : Instant) : String :=
  let day := Int.fdiv t.seconds 86400
  let second := (Int.fmod t.seconds 86400).toNat
  let (y, m, d) := dateOfDay day
  yearText y ++ "-" ++ padded 2 m ++ "-" ++ padded 2 d ++ " " ++ padded 2 (second / 3600) ++ ":"
    ++ padded 2 (second / 60 % 60) ++ ":" ++ padded 2 (second % 60)

end Instant

/-! ## Spans -/

/-- A length of time in nanoseconds. -/
structure Span where
  nanoseconds : Nat
deriving DecidableEq, Repr

namespace Span

/-- Why a text is no length of time. -/
inductive Fault where
  | noNumber
  | badNumber (text : String)
  | badUnit (text : String)
  | outOfRange (text : String)
deriving DecidableEq, Repr

/-- What is said about it, outermost first. -/
def Fault.chain : Fault → List String
  | .noNumber => ["Duration must start with a number"]
  | .badNumber text => ["Invalid number in duration: '" ++ text ++ "'", "invalid float literal"]
  | .badUnit text => ["Invalid duration unit: '" ++ text ++ "'. Valid units: s, m, h, d, w"]
  | .outOfRange text =>
    ["Duration out of range: '" ++ text ++ "'",
      "cannot convert float seconds to Duration: value is either too big or NaN"]

/-- How many seconds a unit has. -/
def unitSeconds? (unit : String) : Option Nat :=
  if ["s", "sec", "second", "seconds"].contains unit then some 1
  else if ["m", "min", "minute", "minutes"].contains unit then some 60
  else if ["h", "hr", "hour", "hours"].contains unit then some 3600
  else if ["d", "day", "days"].contains unit then some 86400
  else if ["w", "week", "weeks"].contains unit then some 604800
  else none

/-- The span nearest to a number of seconds below `2 ^ 64`, an exact tie going to the even
nanosecond. -/
def ofSeconds? (x : Binary64) : Option Span :=
  if x.isFinite && !((twoPow 64 * twoPow 1074 : Nat) ≤ x.scaled) then
    some ⟨divNearest (x.scaled.toNat * Instant.perSecond) (twoPow 1074)⟩
  else none

/-- Read a number and its unit, in any case. -/
def parse (text : String) : Except Fault Span := do
  let text := Text.lowered (Text.trimmed text)
  let s := text.toList
  let digits := s.takeWhile fun c => c.isDigit || c == '.'
  if digits.isEmpty then throw .noNumber
  let number := String.ofList digits
  let some x := Decimal.read? number | throw (.badNumber number)
  let unit := String.ofList (s.drop digits.length)
  let some seconds := unitSeconds? unit | throw (.badUnit unit)
  match ofSeconds? (x.mul (Binary64.ofRatio false seconds 1)) with
  | some span => return span
  | none => throw (.outOfRange text)

end Span

end LayeredConfig
