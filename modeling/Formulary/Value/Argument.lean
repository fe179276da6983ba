import Formulary.Number.Binary64
import Formulary.Value.Grid

/-!
# Arguments

What can be given for a named argument: a number, nested lists of numbers, and
things that are no numbers. An argument becomes a grid when a formula reads it.
Its shape is settled before its entries are looked at, so lists that are not
rectangular, or nested too deep, are refused whatever they hold; then the first
entry that is no number decides.
-/

namespace Formulary

inductive Argument where
  | number (value : Float)
  /-- an integer too large for a double -/
  | oversized
  /-- nothing given, which counts as not a number -/
  | missing
  /-- a text that spells no number -/
  | text
  /-- a thing with named parts -/
  | record
  | list (items : List Argument)
deriving Inhabited

/-- Why an argument is no grid. -/
inductive ArgumentFault where
  | ragged
  /-- lists nested deeper than `Argument.mostLevels` -/
  | tooDeep
  | oversized
  | text
  | record
deriving DecidableEq, Repr

namespace Argument

mutual
/-- The shape of an argument, if its lists are rectangular. -/
def shape? : Argument → Option Shape
  | .list items => do
    let shapes ← shapes? items
    match shapes with
    | [] => return [0]
    | s :: more => if more.all (· == s) then return s ++ [items.length] else none
  | _ => some []
def shapes? : List Argument → Option (List Shape)
  | [] => some []
  | a :: as => do
    let s ← shape? a
    let more ← shapes? as
    return s :: more
end

mutual
/-- The numbers of an argument in order, or the fault of the first entry that is none. -/
def numbers : Argument → Except ArgumentFault (List Float)
  | .number value => .ok [value]
  | .missing => .ok [Binary64.notANumber]
  | .oversized => .error .oversized
  | .text => .error .text
  | .record => .error .record
  | .list items => numbersAll items
def numbersAll : List Argument → Except ArgumentFault (List Float)
  | [] => .ok []
  | a :: as => do
    let xs ← numbers a
    let more ← numbersAll as
    return xs ++ more
end

/-- The most levels of lists in an argument. -/
def mostLevels : Nat := 64

def toGrid (a : Argument) : Except ArgumentFault (Grid Float) := do
  match a.shape? with
  | none => .error .ragged
  | some shape =>
    if mostLevels < shape.length then throw .tooDeep
    let xs ← a.numbers
    return Grid.ofEntries shape xs.toArray Binary64.notANumber

end Argument
end Formulary
