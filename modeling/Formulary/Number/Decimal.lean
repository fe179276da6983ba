import Formulary.Number.Binary64
import Formulary.Number.Digits

/-!
# Choosing decimal digits for a double

Two ways to choose: the fewest digits that still read back as the same double,
and a given number of digits, correctly rounded. Both work on the exact value
`m * 2 ^ q` in natural numbers.

The reals that read back as a double form an interval around it, from halfway
to the neighbour below to halfway to the neighbour above; the ends belong to it
when the mantissa is even. Of the grids of 1, 2, ... 17 digits the first one
with a point in the interval is taken.
-/

namespace Formulary.Number

open Binary64

/-- The number `significand * 10 ^ exponent`. -/
structure Decimal where
  significand : Nat
  exponent : Int
deriving DecidableEq, Repr

def digitCount (n : Nat) : Nat := if n < 10 then 1 else digitCount (n / 10) + 1

/-- The least `k` with `num / den < 10 ^ k`, for a positive quotient. -/
def scale (num den : Nat) : Int :=
  if den ≤ num then digitCount (num / den) else 1 - (digitCount ((den - 1) / num) : Int)

/-- A double without its sign, as the quotient `numerator / denominator`;
doubles of its size are `step / denominator` apart. -/
structure Spaced where
  numerator : Nat
  step : Nat
  denominator : Nat
  /-- the mantissa is even, so the ends of the interval read back -/
  closed : Bool
  /-- the neighbour below is only half as far away as the one above -/
  narrow : Bool

def Spaced.ofParts (p : Parts) : Spaced where
  numerator := p.mantissa * power 2 p.exponent.toNat
  step := power 2 p.exponent.toNat
  denominator := power 2 (-p.exponent).toNat
  closed := p.mantissa % 2 == 0
  narrow := p.mantissa == power 2 52 && decide (-1074 < p.exponent)

/-- Whether a decimal lies among the reals that read back as the double. -/
def Spaced.readsBack (x : Spaced) (d : Decimal) : Bool :=
  let lower := 4 * x.numerator - (if x.narrow then x.step else 2 * x.step)
  let upper := 4 * x.numerator + 2 * x.step
  let here := d.significand * power 10 d.exponent.toNat * (4 * x.denominator)
  let unit := power 10 (-d.exponent).toNat
  if x.closed then decide (lower * unit ≤ here) && decide (here ≤ upper * unit)
  else decide (lower * unit < here) && decide (here < upper * unit)

/-- The point of the grid `10 ^ exponent` that reads back as the double, the nearer
of two, the even one of two equally near. -/
def Spaced.onGrid? (x : Spaced) (exponent : Int) : Option Decimal :=
  let num := x.numerator * power 10 (-exponent).toNat
  let den := x.denominator * power 10 exponent.toNat
  let nearest : Decimal := ⟨roundDiv .toEven num den, exponent⟩
  let below : Decimal := ⟨num / den, exponent⟩
  let above : Decimal := ⟨num / den + 1, exponent⟩
  [nearest, below, above].find? x.readsBack

/-- Trailing zeros of the digits moved into the exponent. -/
def Decimal.strip (d : Decimal) : Decimal :=
  if h : 0 < d.significand ∧ d.significand % 10 = 0 then
    Decimal.strip ⟨d.significand / 10, d.exponent + 1⟩
  else d
termination_by d.significand
decreasing_by omega

/-- The fewest digits that read back as a positive finite double; the exact value of the
double itself reads back in any case. -/
def fewest (p : Parts) : Decimal :=
  let x := Spaced.ofParts p
  let top := scale x.numerator x.denominator
  let found := (List.range 17).findSome? fun (n : Nat) => x.onGrid? (top - 1 - n)
  (found.getD ⟨x.numerator * power 5 (-p.exponent).toNat, min p.exponent 0⟩).strip

/-- A positive quotient rounded to `count` digits. -/
def significant (tie : Tie) (count : Nat) (num den : Nat) : Decimal :=
  let exponent := scale num den - (count : Int)
  let d := roundDiv tie (num * power 10 (-exponent).toNat) (den * power 10 exponent.toNat)
  if d = power 10 count then ⟨power 10 (count - 1), exponent + 1⟩ else ⟨d, exponent⟩

end Formulary.Number
