/-!
# The nearest double

The binary64 number nearest to a fraction, in exact arithmetic on natural numbers. A fraction
half way between two neighbours goes to the one with the even significand, and fractions beyond
the largest finite number go to infinity.
-/

namespace TripleChain.Decimal

/-- The whole number nearest to `num / den`; a half goes to the even neighbour. -/
def roundHalfEven (num den : Nat) : Nat :=
  let floor := num / den
  let rest := 2 * (num % den)
  if rest < den ∨ (rest = den ∧ floor % 2 = 0) then floor else floor + 1

/-- Rounding moves a fraction by at most a half. -/
theorem roundHalfEven_near (num : Nat) {den : Nat} (h : 0 < den) :
    2 * (roundHalfEven num den * den) ≤ 2 * num + den ∧
      2 * num ≤ 2 * (roundHalfEven num den * den) + den := by
  have split := Nat.div_add_mod num den
  have below := Nat.mod_lt num h
  have mul : den * (num / den) = num / den * den := Nat.mul_comm ..
  unfold roundHalfEven
  dsimp only
  split
  · omega
  · rw [Nat.add_mul, Nat.one_mul]; omega

/-- `num * 2 ^ e` against `den`, for exponents of either sign. -/
def reaches (num den : Nat) (e : Int) : Bool :=
  if 0 ≤ e then den * Nat.pow 2 e.toNat ≤ num else den ≤ num * Nat.pow 2 (-e).toNat

/-- The exponent of the leading binary digit of a fraction above zero. -/
def leadingExponent (num den : Nat) : Int :=
  let e : Int := num.log2 - den.log2
  if reaches num den e then e else e - 1

/-- The bits of infinity. -/
def infinityBits : Nat := 0x7ff0000000000000

/-- The bits of the number nearest to `num / den`. The step between numbers of the size of the
fraction is `2 ^ step`, and counting the steps from zero on gives the bits. -/
def nearestBits (num den : Nat) : Nat :=
  if num = 0 then 0
  else
    let step := max (leadingExponent num den - 52) (-1074)
    let significand :=
      if 0 ≤ step then roundHalfEven num (den * Nat.pow 2 step.toNat)
      else roundHalfEven (num * Nat.pow 2 (-step).toNat) den
    min ((step + 1074).toNat * Nat.pow 2 52 + significand) infinityBits

end TripleChain.Decimal
