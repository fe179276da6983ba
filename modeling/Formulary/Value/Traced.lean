import Formulary.Formula.Sameness
import Formulary.Value.Quantity

/-!
# Traced quantities

The value of a formula whose names are filled in one after the other. A traced
quantity is a fraction whose numerator and denominator are known from some name on,
and it remembers how it was made.

That matters where a value is infinite or undefined. Two quantities that were made
in the same way are equal before anything is known of them, so their difference is
zero and their quotient one. And a factor that is found to be exactly zero settles a
product at once, whatever the names still missing will make of the other factor.
-/

namespace Formulary

structure Traced where
  /-- how it was made -/
  made : Formula
  /-- how many names, in their order, have to be filled in before the numerator is known -/
  above : Nat
  /-- the same for the denominator -/
  below : Nat
  value : Quantity

namespace Traced

/-- How many names have to be filled in before a quantity is known. -/
def since (x : Traced) : Nat := max x.above x.below

/-- A double, known from the start. -/
def ofFloat (x : Float) : Traced := ⟨.const x, 0, 0, Quantity.ofFloat x⟩

def zero : Traced := ofFloat 0
def one : Traced := ofFloat 1

/-- The value of a name. A name that reads no argument is never filled in. -/
def ofName (point : List Rat) (name : String) : Traced :=
  match argumentIndex? name with
  | some i => ⟨.var name, i + 1, 0, .exact (point.getD i 0)⟩
  | none => ⟨.var name, argumentNames.length + 1, 0, .unknown⟩

/-- How a quantity was made from two others. -/
def madeFrom (o : Operation) (x y : Traced) : Formula := .apply o.symbol [x.made, y.made]

/-- Whether two quantities are equal while neither of them is known. -/
def agrees (x y : Traced) : Bool := x.since != 0 && x.made.same true y.made

/-- Whether a quantity is found to be zero before another one is known. -/
def settles (x y : Traced) : Bool := x.value.isExactZero && decide (x.since < y.since)

/-- Whether a quantity is a certain number from the start. -/
def isFixed (x : Traced) (q : Rat) : Bool :=
  x.since == 0 && match x.value with
    | .exact p => p == q
    | _ => false

def neg (x : Traced) : Traced :=
  { x with made := .apply Operation.negate.symbol [x.made], value := x.value.neg }

/-- A sum or a difference, over the common denominator. -/
def joined (o : Operation) (x y : Traced) (value : Quantity) : Traced :=
  ⟨madeFrom o x y, max x.since y.since, max x.below y.below, value⟩

def add (x y : Traced) : Traced :=
  if x.agrees y.neg || x.neg.agrees y then zero
  else if x.isFixed 0 then y
  else if y.isFixed 0 then x
  else joined .plus x y (x.value.add y.value)

def sub (x y : Traced) : Traced :=
  if x.agrees y then zero
  else if y.isFixed 0 then x
  else joined .minus x y (x.value.sub y.value)

def mul (x y : Traced) : Traced :=
  if x.settles y then x
  else if y.settles x then y
  else if x.isFixed 1 then y
  else if y.isFixed 1 then x
  else ⟨madeFrom .times x y, max x.above y.above, max x.below y.below, x.value.mul y.value⟩

def div (x y : Traced) : Traced :=
  if x.settles y then x
  else if x.agrees y then one
  else if y.isFixed 1 then x
  else ⟨madeFrom .divide x y, max x.above y.below, max x.below y.above, x.value.div y.value⟩

/-- A power. With a fixed exponent the base stays a fraction, turned over if the exponent is
negative; with any other it can only become infinite as the inverse of a power of zero. -/
def pow (x y : Traced) : Traced :=
  let (above, below) :=
    if y.since != 0 then (0, max x.since y.since)
    else if y.value.isNegative then (x.below, x.above)
    else (x.above, x.below)
  if y.isFixed 1 then x
  else ⟨madeFrom .power x y, above, below, x.value.pow y.value⟩

/-- The natural logarithm of the absolute value. That of a pole is positive infinity, but if the
pole is a known number over nothing it stays a pole: its absolute value is then a quotient too. -/
def lnAbs (x : Traced) : Traced :=
  let value := match x.value with
    | .pole =>
      if x.above < x.below then .pole else .approximate Binary64.posInfinity false
    | v => v.lnAbs
  ⟨.apply Operation.log.symbol [x.made], x.since, 0, value⟩

def arithmetic : Arithmetic Traced where
  ofFloat := ofFloat
  euler := ⟨.euler, 0, 0, .approximate Binary64.eulerNumber false⟩
  add := add
  sub := sub
  neg := neg
  mul := mul
  div := div
  pow := pow
  lnAbs := lnAbs

end Traced

/-- Why a formula has no real value. -/
inductive RealFault where
  | meaning (fault : MeaningFault)
  | notReal
deriving DecidableEq, Repr

/-- The real value of a formula at a point of rationals; zero has no sign. -/
def Formula.realAt (point : List Rat) (t : Formula) : Except RealFault Float :=
  match t.meaning Traced.arithmetic (Traced.ofName point) with
  | .error fault => .error (.meaning fault)
  | .ok v =>
    match v.value.toReal? with
    | none => .error .notReal
    | some x => .ok (if x == 0 then 0 else x)

end Formulary
