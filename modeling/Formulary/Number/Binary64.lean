import Formulary.Number.Power

/-!
# Doubles as exact numbers

A finite double is a sign and a natural number times a power of two. This
module reads those parts off the bits, and goes the other way: from an exact
quotient of naturals to the double nearest to it.

The rounding works on the bits. For a quotient in the range where doubles are
`2 ^ q` apart, the bits of the nearest one are `(q + 1074) * 2 ^ 52` plus the
quotient measured in units of `2 ^ q`, rounded: when the rounding carries into
the next binade, so do the bits.
-/

namespace Formulary.Binary64

open Number (power)

/-- A finite double: `mantissa * 2 ^ exponent`, negated when `negative`. -/
structure Parts where
  negative : Bool
  mantissa : Nat
  exponent : Int
deriving DecidableEq, Repr

def signBit : Nat := power 2 63
def infinityBits : Nat := 0x7FF0000000000000

/-- The parts of a finite double; the bits of other values are read as if they were finite. -/
def parts (x : Float) : Parts :=
  let bits := x.toBits.toNat
  let magnitude := bits % signBit
  let field : Nat := magnitude / power 2 52
  let fraction := magnitude % power 2 52
  { negative := decide (signBit ≤ bits)
    mantissa := if field = 0 then fraction else power 2 52 + fraction
    exponent := if field = 0 then -1074 else (field : Int) - 1075 }

/-- Where a half goes when a number is rounded. -/
inductive Tie where
  | toEven
  | awayFromZero
deriving DecidableEq, Repr

/-- A quotient rounded to the nearest natural number. -/
def roundDiv (tie : Tie) (num den : Nat) : Nat :=
  let q := num / den
  let r := num % den
  if 2 * r < den then q
  else if den < 2 * r then q + 1
  else match tie with
    | .toEven => if q % 2 = 0 then q else q + 1
    | .awayFromZero => q + 1

/-- The exponent of the greatest power of two that is at most `num / den`. -/
def floorLog2 (num den : Nat) : Int :=
  let e : Int := (num.log2 : Int) - (den.log2 : Int)
  if den * power 2 e.toNat ≤ num * power 2 (-e).toNat then e else e - 1

/-- The bits of the double nearest to `num / den`, ties to the even mantissa;
those of infinity when the quotient is too large. -/
def nearestBits (num den : Nat) : Nat :=
  if num = 0 then 0
  else
    let q := max (floorLog2 num den - 52) (-1074)
    let units := roundDiv .toEven (num * power 2 (-q).toNat) (den * power 2 q.toNat)
    min ((q + 1074).toNat * power 2 52 + units) infinityBits

/-- The double nearest to `num / den`, with the sign that is asked for also on zero. -/
def ofRatio (negative : Bool) (num den : Nat) : Float :=
  Float.ofBits (UInt64.ofNat (nearestBits num den + if negative then signBit else 0))

/-- The double nearest to a natural number. -/
def ofNat (n : Nat) : Float := ofRatio false n 1

/-- The double nearest to a rational number. -/
def ofRat (q : Rat) : Float := ofRatio (decide (q < 0)) q.num.natAbs q.den

def posInfinity : Float := Float.ofBits 0x7FF0000000000000
def negInfinity : Float := Float.ofBits 0xFFF0000000000000
def notANumber : Float := Float.ofBits 0x7FF8000000000000
def negZero : Float := Float.ofBits 0x8000000000000000

/-- The double nearest to the base of the natural logarithm. -/
def eulerNumber : Float := Float.ofBits 0x4005BF0A8B145769

namespace Parts

/-- Whether the number is an integer. -/
def isIntegral (p : Parts) : Bool :=
  decide (0 ≤ p.exponent) || p.mantissa % power 2 (-p.exponent).toNat == 0

/-- The absolute value of an integral number. -/
def natValue (p : Parts) : Nat :=
  p.mantissa * power 2 p.exponent.toNat / power 2 (-p.exponent).toNat

def toRat (p : Parts) : Rat :=
  let magnitude : Rat := mkRat (p.mantissa * power 2 p.exponent.toNat) (power 2 (-p.exponent).toNat)
  if p.negative then -magnitude else magnitude

end Parts

/-- Whether a double is a finite integer. -/
def isIntegral (x : Float) : Bool := x.isFinite && (parts x).isIntegral

/-- The modulus of `residue`. -/
def residueModulus : Nat := power 2 61 - 1

/-- The number that stands for a double in a digest: its residue modulo `2 ^ 61 - 1`
with the sign of the double, where a power of two counts by its exponent modulo 61.
The residue -1 is kept free, and the infinities have numbers of their own. -/
def residue (x : Float) : Int :=
  if x.isNaN then 0
  else if x.isInf then (if (parts x).negative then -314159 else 314159)
  else
    let p := parts x
    let r : Int := (p.mantissa * power 2 (p.exponent % 61).toNat % residueModulus : Nat)
    let r := if p.negative then -r else r
    if r = -1 then -2 else r

end Formulary.Binary64
