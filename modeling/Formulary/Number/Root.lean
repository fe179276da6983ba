import Formulary.Number.Power

/-!
# Exact roots

The root of a natural number is found bit by bit, the greatest bit first: a bit is
set when the power of what is found so far stays within the number. The root is
exact when its power is the number itself.

A power of a rational is exact when its exponent is whole, or when it asks for a
root that numerator and denominator both have.
-/

namespace Formulary.Number

/-- A root of `n` of which `r` is known, with the given number of bits to come. -/
def rootFrom (k n : Nat) : Nat → Nat → Nat
  | 0, r => r
  | bits + 1, r =>
    let s := r + power 2 bits
    rootFrom k n bits (if power s k ≤ n then s else r)

/-- The `k`-th root of `n`, rounded down. -/
def root (k n : Nat) : Nat := rootFrom k n (n.log2 / k + 1) 0

/-- The number whose `k`-th power is `n`. A number with fewer than `k` bits after the first
has no such root unless it is zero or one. -/
def exactRoot? (k n : Nat) : Option Nat :=
  if n ≤ 1 then some n
  else if n.log2 < k then none
  else if power (root k n) k = n then some (root k n) else none

/-- A power that is rational. Broken powers are taken of numbers that are not negative. -/
def exactPower? (x y : Rat) : Option Rat :=
  if y.den = 1 then some (wholePower x y.num)
  else if x < 0 then none
  else match exactRoot? y.den x.num.natAbs, exactRoot? y.den x.den with
    | some a, some b => some (wholePower (mkRat a b) y.num)
    | _, _ => none

/-- With a whole exponent it is the plain power. -/
theorem exactPower?_of_den {x y : Rat} (h : y.den = 1) : exactPower? x y = some (x ^ y.num) := by
  simp [exactPower?, h, wholePower_eq]

end Formulary.Number
