import TripleChain.Decimal.Nearest

/-!
# Reading numbers

A number is an optional sign followed by `inf`, `infinity` or `nan` in any case, or by decimal
digits with an optional point and an optional exponent. At least one digit stands before the
exponent.
-/

namespace TripleChain.Decimal

/-- The number that decimal digits stand for. -/
def natural (digits : List Char) : Nat :=
  digits.foldl (fun n c => 10 * n + (c.toNat - '0'.toNat)) 0

/-- Decimal digits, at least one and nothing else. -/
def readNatural? (s : List Char) : Option Nat :=
  if s.isEmpty || !s.all Char.isDigit then none else some (natural s)

/-- Whether a minus sign stands in front, and what follows the sign. -/
def readSign : List Char → Bool × List Char
  | '-' :: s => (true, s)
  | '+' :: s => (false, s)
  | s => (false, s)

def readExponent? : List Char → Option Int
  | [] => some 0
  | c :: s =>
    if c = 'e' ∨ c = 'E' then
      let (negative, digits) := readSign s
      (readNatural? digits).map fun n => if negative then -(n : Int) else n
    else none

/-- The digits before the point, those after it, and the rest. -/
def readDigits (s : List Char) : List Char × List Char × List Char :=
  let whole := s.takeWhile Char.isDigit
  match s.dropWhile Char.isDigit with
  | '.' :: s => (whole, s.takeWhile Char.isDigit, s.dropWhile Char.isDigit)
  | s => (whole, [], s)

/-- The bits of the number nearest to `digits * 10 ^ exponent`. With `places` digits a number
beyond `10 ^ 400` or below `10 ^ (-400)` is infinite or zero whatever the digits are. -/
def scaledBits (digits places : Nat) (exponent : Int) : Nat :=
  if digits = 0 ∨ exponent + places < -400 then 0
  else if 400 < exponent then infinityBits
  else if 0 ≤ exponent then nearestBits (digits * Nat.pow 10 exponent.toNat) 1
  else nearestBits digits (Nat.pow 10 (-exponent).toNat)

/-- The bits of an unsigned number. -/
def readMagnitude? (s : List Char) : Option Nat :=
  let name := s.map Char.toLower
  if name = "inf".toList ∨ name = "infinity".toList then some infinityBits
  else if name = "nan".toList then some (infinityBits + Nat.pow 2 51)
  else
    let (whole, fraction, rest) := readDigits s
    if whole.isEmpty && fraction.isEmpty then none
    else (readExponent? rest).map fun exponent =>
      let digits := whole ++ fraction
      scaledBits (natural digits) digits.length (exponent - fraction.length)

/-- The number a text stands for, rounded to the nearest double. -/
def read? (s : List Char) : Option Float :=
  let (negative, magnitude) := readSign s
  (readMagnitude? magnitude).map fun bits =>
    Float.ofBits (UInt64.ofNat (if negative then Nat.pow 2 63 + bits else bits))

/-- A code of at most 32 bits: decimal digits after an optional plus sign. -/
def readCode? (s : List Char) : Option Nat :=
  let digits := match s with
    | '+' :: s => s
    | s => s
  (readNatural? digits).filter (· < Nat.pow 2 32)

end TripleChain.Decimal
