import Formulary.Value.Meaning
import Formulary.Value.Polar

/-!
# Quantities

Numbers that stay exact as long as they can. A quantity is an exact rational, or a
double once an irrational power, a logarithm or a broken constant has entered. An
exact zero absorbs: times anything finite it is zero, whatever rounding the other
factor carries.

Quotients by zero and logarithms of zero are poles: infinite, but neither positive
nor negative. The two infinities themselves, and what is left undefined, are kept
as the doubles of that kind. Broken powers of negative numbers are not real; their
products, powers and absolute values can be real again.
-/

namespace Formulary

inductive Quantity where
  | exact (value : Rat)
  /-- a double close by; `decimal` tells whether a broken constant has gone into it -/
  | approximate (value : Float) (decimal : Bool)
  | pole
  | nonReal (value : Polar) (decimal : Bool)
  /-- what hangs on a name that has no value -/
  | unknown

namespace Quantity

/-- What has no value, such as zero over zero. -/
def undefined : Quantity := .approximate Binary64.notANumber true

/-- The real number nearest to a quantity, if it has one. -/
def toReal? : Quantity → Option Float
  | .exact q => some (Binary64.ofRat q)
  | .approximate x _ => some x
  | .pole | .nonReal _ _ | .unknown => none

/-- A double as a quantity; only an integral one counts as exact. -/
def ofFloat (x : Float) : Quantity :=
  if Binary64.isIntegral x then .exact (Binary64.parts x).toRat else .approximate x true

def isExactZero : Quantity → Bool
  | .exact q => q == 0
  | _ => false

def isZero : Quantity → Bool
  | .exact q => q == 0
  | .approximate x _ => x == 0
  | _ => false

def isFinite : Quantity → Bool
  | .exact _ | .nonReal _ _ | .unknown => true
  | .approximate x _ => x.isFinite
  | .pole => false

def isUndefined : Quantity → Bool
  | .approximate x _ => x.isNaN
  | _ => false

def isPositive : Quantity → Bool
  | .exact q => decide (0 < q)
  | .approximate x _ => decide (0 < x)
  | _ => false

def isNegative : Quantity → Bool
  | .exact q => decide (q < 0)
  | .approximate x _ => decide (x < 0)
  | _ => false

/-- Whether a broken constant has gone into a quantity. -/
def isDecimal : Quantity → Bool
  | .approximate _ d | .nonReal _ d => d
  | _ => false

/-- A number of the plane as a quantity; one that is real for certain counts as real. -/
def ofPolar (z : Polar) (decimal : Bool) : Quantity :=
  match z.toReal? with
  | some x => .approximate x decimal
  | none => .nonReal z decimal

def toPolar? : Quantity → Option Polar
  | .nonReal z _ => some z
  | q => q.toReal?.map Polar.ofReal

/-- What two irrational numbers come to. Where it is zero, one or minus one the two were equal or
opposite, so it is exact. -/
def settled (x : Float) : Quantity :=
  if x == 0 then .exact 0
  else if x == 1 then .exact 1
  else if x == -1 then .exact (-1)
  else .approximate x false

/-- An operation with a version for rationals, for doubles and for the plane. -/
structure Versions where
  onRat : Rat → Rat → Rat
  onFloat : Float → Float → Float
  onPolar : Polar → Polar → Polar

/-- An operation in the first version that serves both quantities. A pole stays one, and
otherwise what is unknown stays unknown. -/
def combine (f : Versions) (x y : Quantity) : Quantity :=
  if x.isUndefined || y.isUndefined then undefined
  else match x, y with
    | .exact p, .exact q => .exact (f.onRat p q)
    | .exact p, .approximate b d => .approximate (f.onFloat (Binary64.ofRat p) b) d
    | .approximate a d, .exact q => .approximate (f.onFloat a (Binary64.ofRat q)) d
    | .approximate a false, .approximate b false => settled (f.onFloat a b)
    | .approximate a d, .approximate b e => .approximate (f.onFloat a b) (d || e)
    | .pole, _ | _, .pole => .pole
    | x, y =>
      match x.toPolar?, y.toPolar? with
      | some z, some w => ofPolar (f.onPolar z w) (x.isDecimal || y.isDecimal)
      | _, _ => .unknown

/-- A pole outweighs anything finite. -/
def add : Quantity → Quantity → Quantity
  | .pole, y => if y.isFinite then .pole else undefined
  | x, .pole => if x.isFinite then .pole else undefined
  | x, y => combine ⟨(· + ·), Float.add, Polar.add⟩ x y

def neg : Quantity → Quantity
  | .exact q => .exact (-q)
  | .approximate x d => .approximate (-x) d
  | .pole => .pole
  | .nonReal z d => .nonReal z.neg d
  | .unknown => .unknown

def sub (x y : Quantity) : Quantity := x.add y.neg

def mul (x y : Quantity) : Quantity :=
  if x.isExactZero || y.isExactZero then
    if x.isFinite && y.isFinite then .exact 0 else undefined
  else match x, y with
    | .pole, z | z, .pole => if z.isZero || z.isUndefined then undefined else .pole
    | x, y => combine ⟨(· * ·), Float.mul, Polar.mul⟩ x y

/-- The inverse of what is zero or infinite. -/
def singularInverse (x : Quantity) : Quantity :=
  if x.isZero then .pole else if x.isUndefined then undefined else .exact 0

def div (x y : Quantity) : Quantity :=
  if y.isZero || !y.isFinite then x.mul y.singularInverse
  else if x.isExactZero then x
  else combine ⟨(· / ·), Float.div, Polar.div⟩ x y

/-- The largest exponent with which powers of rationals are worked out. -/
def mostExponent : Nat := 16777216

/-- The natural logarithm of a positive quotient; one that is too large or too small for a
double is brought near one by a power of two first. -/
def lnRatio (num den : Nat) : Float :=
  let e := Binary64.floorLog2 num den
  if e.natAbs < 1000 then Float.log (Binary64.ofRatio false num den)
  else
    let near := Binary64.ofRatio false (num * Number.power 2 (-e).toNat)
      (den * Number.power 2 e.toNat)
    Float.log near + Binary64.ofRat e * Float.log 2

/-- A power that is not rational, or too large to be worked out, of a positive rational; by way
of the logarithm where the base is no double. -/
def roundedPower (p q : Rat) : Float :=
  let base := Binary64.ofRat p
  if base.isFinite && base != 0 then Float.pow base (Binary64.ofRat q)
  else Float.exp (Binary64.ofRat q * lnRatio p.num.natAbs p.den)

/-- A power of a rational that is not zero. -/
def rationalPower (p q : Rat) : Quantity :=
  if p = 1 then .exact 1
  else
    match if q.num.natAbs ≤ mostExponent then Number.exactPower? p q else none with
    | some r => .exact r
    | none =>
      if 0 < p then .approximate (roundedPower p q) false
      else
        let size := match Number.exactPower? (-p) q with
          | some r => Binary64.ofRat r
          | none => roundedPower (-p) q
        ofPolar ⟨size, .ofHalfTurns q⟩ false

/-- A power with an infinite exponent, the base not zero. That of one or minus one is undefined,
and that of a negative number that grows has no direction. -/
def infinitePower (x y : Float) (decimal : Bool) : Quantity :=
  if x == 1 || x == -1 then undefined
  else if x < 0 && (x < -1) == (0 < y) then
    .nonReal ⟨Binary64.posInfinity, .close 0⟩ decimal
  else .approximate (Float.pow x y) decimal

/-- A power of a double with a finite exponent, the base not zero. -/
def floatPower (x y : Float) (exponent? : Option Rat) (decimal : Bool) : Quantity :=
  if x < 0 && !Binary64.isIntegral y then
    ofPolar ((Polar.ofReal x).realPower y exponent?) decimal
  else .approximate (Float.pow x y) decimal

/-- The exact value of a quantity, if it is known. -/
def toRat? : Quantity → Option Rat
  | .exact q => some q
  | _ => none

/-- A power of a number other than zero; the exponent is no exact zero. -/
def properPower (x y : Quantity) : Quantity :=
  let decimal := x.isDecimal || y.isDecimal
  match x, y with
  | .exact p, .exact q => rationalPower p q
  | .nonReal z _, .nonReal w _ => ofPolar (z.power w) decimal
  | .nonReal z _, y =>
    match y.toReal? with
    | some b => if b.isFinite then ofPolar (z.realPower b y.toRat?) decimal else undefined
    | none => .unknown
  | x, .nonReal w _ =>
    match x.toReal? with
    | some a => ofPolar ((Polar.ofReal a).power w) decimal
    | none => .unknown
  | x, y =>
    match x.toReal?, y.toReal? with
    | some a, some b =>
      if b.isInf then infinitePower a b decimal else floatPower a b y.toRat? decimal
    | _, _ => .unknown

def pow (x y : Quantity) : Quantity :=
  if y.isExactZero then .exact 1
  else if x.isUndefined || y.isUndefined then undefined
  else if x.isZero then
    if y.isPositive then x else if y.isNegative then .pole else undefined
  else match x, y with
    | .pole, _ => if y.isPositive then .pole else if y.isNegative then .exact 0 else undefined
    | _, .pole => undefined
    | x, y => if x.toRat? = some 1 ∧ y.isFinite then .exact 1 else properPower x y

/-- The natural logarithm of the absolute value, exact at one. -/
def lnAbs : Quantity → Quantity
  | .exact p =>
    if p = 0 then .pole
    else if p = 1 ∨ p = -1 then .exact 0
    else .approximate (lnRatio p.num.natAbs p.den) false
  | .approximate x d => if x == 0 then .pole else .approximate (Float.log (Float.abs x)) d
  | .pole => .pole
  | .nonReal z d =>
    if z.size == 1 then .exact 0 else .approximate (Float.log z.size) d
  | .unknown => .unknown

def arithmetic : Arithmetic Quantity where
  ofFloat := ofFloat
  euler := .approximate Binary64.eulerNumber false
  add := add
  sub := sub
  neg := neg
  mul := mul
  div := div
  pow := pow
  lnAbs := lnAbs

end Quantity

namespace Formula

/-- The value of a formula where its names stand for rationals, exact as far as it can be. -/
def quantityAt (point : String → Rat) (t : Formula) : Except MeaningFault Quantity :=
  t.meaning Quantity.arithmetic fun name => .exact (point name)

/-- The exact value of a formula at a point of rationals. -/
def rationalAt (point : List Rat) (t : Formula) : Except MeaningFault Rat :=
  t.meaning Arithmetic.rat (pointOf 0 point)

end Formula
end Formulary
