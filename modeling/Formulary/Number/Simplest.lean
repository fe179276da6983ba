import Formulary.Number.Binary64

/-!
# Simple fractions

The simplest rational of an interval is the one with the least denominator. If no
integer lies in the interval, all of it lies between two neighbouring integers;
the simplest rational is then the lower of them plus the inverse of the simplest
one in the interval of inverses.
-/

namespace Formulary.Number

/-- The simplest rational from `low` to `high`, both positive; `depth` bounds how often inverses
are taken. -/
def simplestWithin : Nat → Rat → Rat → Rat
  | 0, low, _ => low
  | depth + 1, low, high =>
    if (low.ceil : Rat) ≤ high then low.ceil
    else
      let below : Rat := low.floor
      below + (simplestWithin depth (high - below)⁻¹ (low - below)⁻¹)⁻¹

/-- How far a double that stands for a rational may be off, as a part of its value. -/
def closeness : Rat := mkRat 1 (power 2 40)

/-- The simplest rational close to a finite double. -/
def simplestNear (x : Float) : Rat :=
  let q := (Binary64.parts x).toRat
  let size := if q < 0 then -q else q
  let near := if q = 0 then 0
    else simplestWithin 64 (size * (1 - closeness)) (size * (1 + closeness))
  if q < 0 then -near else near

end Formulary.Number
