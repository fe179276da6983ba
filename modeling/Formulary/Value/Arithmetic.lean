import Formulary.Number.Binary64
import Formulary.Number.Root

/-!
# Arithmetics

The numbers that a formula can be evaluated in, as a record of operations:
doubles, and exact rationals. All operations are total; what they return where
mathematics leaves a value open is part of each arithmetic.
-/

namespace Formulary

structure Arithmetic (α : Type) where
  /-- a double as a number of this arithmetic -/
  ofFloat : Float → α
  /-- a count as a number: the double nearest to it, unless counts are exact -/
  ofNat : Nat → α := fun n => ofFloat (Binary64.ofNat n)
  /-- the base of the natural logarithm -/
  euler : α
  add : α → α → α
  sub : α → α → α
  neg : α → α
  mul : α → α → α
  div : α → α → α
  pow : α → α → α
  /-- a power whose exponent is held while one base after the other is raised to it -/
  powHeld : α → α → α := pow
  /-- the natural logarithm of the absolute value -/
  lnAbs : α → α

namespace Arithmetic

/-- The logarithm of `y` to the base `x`, signs ignored. -/
def log {α : Type} (A : Arithmetic α) (x y : α) : α := A.div (A.lnAbs y) (A.lnAbs x)

/-- The power that applies when the exponent is held, and when it is not. -/
def power {α : Type} (A : Arithmetic α) (held : Bool) : α → α → α :=
  if held then A.powHeld else A.pow

def square {α : Type} (A : Arithmetic α) (x : α) : α := A.mul x x

/-- A power of doubles whose exponent is held, made of a power whose exponent runs. Five exponents
are served by simpler operations. Only for one half does that show: a square root keeps the sign
of a zero, and there is none of minus infinity, while the machine's power makes both positive. -/
def heldPow (pow : Float → Float → Float) (x y : Float) : Float :=
  if y == -1 then Float.div 1 x
  else if y == 0 then 1
  else if y == 0.5 then Float.sqrt x
  else if y == 1 then x
  else if y == 2 then Float.mul x x
  else pow x y

/-- Doubles with a natural logarithm and a power of some machine. Each other operation is rounded
once to the nearest. -/
def machine (ln : Float → Float) (pow : Float → Float → Float) : Arithmetic Float where
  ofFloat x := x
  euler := Binary64.eulerNumber
  add := Float.add
  sub := Float.sub
  neg := Float.neg
  mul := Float.mul
  div := Float.div
  pow := pow
  powHeld := heldPow pow
  lnAbs x := ln (Float.abs x)

/-- The held power of this machine. -/
def floatPowHeld : Float → Float → Float := heldPow Float.pow

/-- Doubles with the powers and logarithms of this machine. -/
def float : Arithmetic Float := machine Float.log Float.pow

/-- A power that is rational; the zeroth power is one. Any other power counts as zero. -/
def ratPow (x y : Rat) : Rat := (Number.exactPower? x y).getD 0

/-- Exact rationals. A finite double is the rational that it is, and the other doubles
count as zero, like quotients by zero. Counts are not rounded. There is no logarithm, so it counts
as zero too. -/
def rat : Arithmetic Rat where
  ofFloat x := if x.isFinite then (Binary64.parts x).toRat else 0
  ofNat n := n
  euler := (Binary64.parts Binary64.eulerNumber).toRat
  add x y := x + y
  sub x y := x - y
  neg x := -x
  mul x y := x * y
  div x y := x / y
  pow := ratPow
  lnAbs _ := 0

example : (floatPowHeld Binary64.negZero 0.5).toBits = Binary64.negZero.toBits := by
  decide +kernel
example : (floatPowHeld Binary64.negInfinity 0.5).isNaN = true := by decide +kernel

end Arithmetic
end Formulary
