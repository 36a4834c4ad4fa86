/-!
# Shortest decimal text

A finite double is written with the fewest decimal digits that read back as the same number; of
several such numbers the nearest is taken, and the larger one of two equally near. The digits
stand in positional notation, never with an exponent.
-/

namespace TripleChain.Decimal

/-- How many decimal digits a natural number has. -/
def width (n : Nat) : Nat := (Nat.toDigits 10 n).length

/-- The exponent of the leading decimal digit of a fraction above zero. -/
def leadingDecimal (num den : Nat) : Int :=
  if den ≤ num then width (num / den) - 1 else -(width ((den - 1) / num) : Int)

/-- The fractions that read back as one double: from `low / den` to `high / den` around
`mid / den`, the ends included or not. -/
structure Interval where
  low : Nat
  mid : Nat
  high : Nat
  den : Nat
  closed : Bool

/-- The interval of `significand * 2 ^ exponent`. At a power of two the numbers below lie twice
as close as those above. -/
def Interval.of (significand : Nat) (exponent : Int) (atPower : Bool) : Interval :=
  let num := Nat.pow 2 (exponent - 2).toNat
  { low := (4 * significand - if atPower then 1 else 2) * num
    mid := 4 * significand * num
    high := (4 * significand + 2) * num
    den := Nat.pow 2 (2 - exponent).toNat
    closed := significand % 2 = 0 }

/-- Whether `n * 10 ^ k` reads back as the number of the interval. -/
def Interval.holds (i : Interval) (n : Nat) (k : Int) : Bool :=
  let value := n * Nat.pow 10 k.toNat * i.den
  let scale := Nat.pow 10 (-k).toNat
  if i.closed then i.low * scale ≤ value && value ≤ i.high * scale
  else i.low * scale < value && value < i.high * scale

/-- The neighbours of the middle on the grid of multiples of `10 ^ k` that lie in the interval,
the nearer one if both do. -/
def Interval.onGrid? (i : Interval) (k : Int) : Option Nat :=
  let unit := Nat.pow 10 k.toNat * i.den
  let mid := i.mid * Nat.pow 10 (-k).toNat
  let below := mid / unit
  match i.holds below k, i.holds (below + 1) k with
  | true, false => some below
  | false, true => some (below + 1)
  | true, true => some (if 2 * (mid % unit) < unit then below else below + 1)
  | false, false => none

/-- Tries one digit, two digits and so on, at most `more` of them, the last one at the place
`place` and lower. Without a hit the number gets all its digits. -/
def Interval.shortest (i : Interval) : (more : Nat) → (place : Int) → Nat × Int
  | 0, place => (i.mid * Nat.pow 10 (-place).toNat / (Nat.pow 10 place.toNat * i.den), place)
  | more + 1, place =>
    match i.onGrid? place with
    | some n => (n, place)
    | none => i.shortest more (place - 1)

/-- Leaves out the zeros at the end of the digits; there are less than `steps` of them. -/
def dropZeros : (steps n : Nat) → Int → Nat × Int
  | 0, n, k => (n, k)
  | steps + 1, n, k => if n % 10 = 0 then dropZeros steps (n / 10) (k + 1) else (n, k)

/-- The number `n * 10 ^ k` without an exponent. -/
def positionalText (n : Nat) (k : Int) : String :=
  let digits := Nat.toDigits 10 n
  if 0 ≤ k then String.ofList (digits ++ List.replicate k.toNat '0')
  else
    let places := (-k).toNat
    let padded := List.replicate (places + 1 - digits.length) '0' ++ digits
    String.ofList (padded.take (padded.length - places) ++ '.' :: padded.drop (padded.length - places))

/-- The text of a double above zero, from its fields. -/
def finiteText (exponent fraction : Nat) : String :=
  let (significand, power) : Nat × Int :=
    if exponent = 0 then (fraction, -1074) else (fraction + Nat.pow 2 52, (exponent : Int) - 1075)
  let i := Interval.of significand power (fraction = 0 ∧ 1 < exponent)
  let (n, k) := i.shortest 17 (leadingDecimal i.mid i.den)
  let (n, k) := dropZeros 20 n k
  positionalText n k

def floatText (x : Float) : String :=
  let bits := x.toBits.toNat
  let sign := if Nat.pow 2 63 ≤ bits then "-" else ""
  let exponent := bits / Nat.pow 2 52 % Nat.pow 2 11
  let fraction := bits % Nat.pow 2 52
  if exponent = 2047 then
    if fraction = 0 then sign ++ "inf" else "NaN"
  else if exponent = 0 ∧ fraction = 0 then sign ++ "0"
  else sign ++ finiteText exponent fraction

end TripleChain.Decimal
