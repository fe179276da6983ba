import Formulary.Number.Binary64

/-!
# Numbers in polar form

A number of the plane is a size and a direction. The direction is kept as an exact
number of half turns as long as it can: products and powers only add and multiply
directions, so that it is certain whether they lead back to the real line. After a
sum of numbers in different directions the direction is only known closely, and
the number is never taken for real again.
-/

namespace Formulary

/-- A direction in half turns, more than minus one and at most one. -/
inductive Direction where
  | exact (halfTurns : Rat)
  | close (halfTurns : Float)

namespace Direction

/-- Directions that differ by full turns are the same; this one is in the range. -/
def ofHalfTurns (q : Rat) : Direction := .exact (q - 2 * ((q - 1) / 2).ceil)

def ofFloat (x : Float) : Direction := .close (x - 2 * Float.ceil ((x - 1) / 2))

def toFloat : Direction → Float
  | .exact q => Binary64.ofRat q
  | .close x => x

def pi : Float := 3.141592653589793

def radians (d : Direction) : Float := pi * d.toFloat

/-- The cosine, which is zero straight up and straight down. -/
def cos (d : Direction) : Float :=
  match d with
  | .exact q => if q = 1 / 2 ∨ q = -1 / 2 then 0 else Float.cos d.radians
  | .close _ => Float.cos d.radians

/-- The sine, which is zero on the real line. -/
def sin (d : Direction) : Float :=
  match d with
  | .exact q => if q = 0 ∨ q = 1 then 0 else Float.sin d.radians
  | .close _ => Float.sin d.radians

def add : Direction → Direction → Direction
  | .exact p, .exact q => ofHalfTurns (p + q)
  | d, e => ofFloat (d.toFloat + e.toFloat)

def neg : Direction → Direction
  | .exact q => ofHalfTurns (-q)
  | .close x => ofFloat (-x)

end Direction

structure Polar where
  size : Float
  direction : Direction

namespace Polar

def ofReal (x : Float) : Polar := ⟨Float.abs x, .exact (if x < 0 then 1 else 0)⟩

/-- The real number that a number is for certain. -/
def toReal? (z : Polar) : Option Float :=
  if z.size == 0 then some 0
  else match z.direction with
  | .exact q => if q = 0 then some z.size else if q = 1 then some (-z.size) else none
  | .close _ => none

def realPart (z : Polar) : Float := z.size * z.direction.cos
def imaginaryPart (z : Polar) : Float := z.size * z.direction.sin

/-- The number with given parts; its direction is only known closely. -/
def ofParts (re im : Float) : Polar :=
  ⟨Float.sqrt (re * re + im * im), .close (Float.atan2 im re / Direction.pi)⟩

def neg (z : Polar) : Polar := ⟨z.size, z.direction.add (.exact 1)⟩

/-- A sum; that of numbers on one line through zero stays on the line. -/
def add (z w : Polar) : Polar :=
  let sum := ofParts (z.realPart + w.realPart) (z.imaginaryPart + w.imaginaryPart)
  match z.direction, w.direction with
  | .exact p, .exact q =>
    if p = q then ⟨z.size + w.size, .exact p⟩
    else if p - q = 1 ∨ q - p = 1 then
      if w.size ≤ z.size then ⟨z.size - w.size, .exact p⟩ else ⟨w.size - z.size, .exact q⟩
    else sum
  | _, _ => sum

def mul (z w : Polar) : Polar := ⟨z.size * w.size, z.direction.add w.direction⟩

def div (z w : Polar) : Polar := ⟨z.size / w.size, z.direction.add w.direction.neg⟩

/-- A power with a real exponent, which may be known exactly. -/
def realPower (z : Polar) (y : Float) (exponent? : Option Rat) : Polar :=
  let direction := match z.direction, exponent? with
    | .exact p, some q => Direction.ofHalfTurns (p * q)
    | d, _ => Direction.ofFloat (d.toFloat * y)
  ⟨Float.pow z.size y, direction⟩

/-- A power of a number other than zero, with any exponent. It is real where nothing turns it, as
with an imaginary power of minus one. -/
def power (z w : Polar) : Polar :=
  let ln := Float.log z.size
  let turn := z.direction.radians
  let re := w.realPart
  let im := w.imaginaryPart
  let angle := im * ln + re * turn
  ⟨Float.exp (re * ln - im * turn),
    if angle == 0 then .exact 0 else Direction.ofFloat (angle / Direction.pi)⟩

end Polar
end Formulary
