import Formulary.Formula.Basic
import Formulary.Operation
import Formulary.Value.Argument
import Formulary.Value.Summation

/-!
# Evaluation

A formula is evaluated over grids, entry by entry, in any arithmetic. At each
operation the symbol is looked up first, then the operands are evaluated from
left to right, and only then are they counted and their shapes joined. A name is
looked up before its argument is.
-/

namespace Formulary

/-- Why a formula has no value. -/
inductive EvalFault where
  | unknownOperation (symbol : String)
  | unknownName (name : String)
  | missingArgument (position : Nat)
  | argument (fault : ArgumentFault)
  | operandCount (symbol : String) (count : Nat)
  | noOperands (symbol : String)
  | shapeMismatch
  /-- a mean is only taken of grids of at most `Grid.mostDimensions` dimensions -/
  | tooManyDimensions
deriving DecidableEq, Repr

/-- Families of faults of an evaluation: what a caller can tell apart. -/
inductive FaultFamily where
  /-- no operation has the symbol -/
  | lookup
  /-- no argument stands at the position -/
  | index
  /-- a name, a number, a shape or a lack of operands that nothing can be made of -/
  | value
  /-- no number at all, or another count of operands than the operation's -/
  | kind
  /-- a number too large for a double -/
  | overflow
  /-- more dimensions than can be combined -/
  | capacity
deriving DecidableEq, Repr

def ArgumentFault.family : ArgumentFault → FaultFamily
  | .ragged | .tooDeep | .text => .value
  | .oversized => .overflow
  | .record => .kind

def EvalFault.family : EvalFault → FaultFamily
  | .unknownOperation _ => .lookup
  | .missingArgument _ => .index
  | .argument fault => fault.family
  | .operandCount _ _ => .kind
  | .unknownName _ | .noOperands _ | .shapeMismatch => .value
  | .tooManyDimensions => .capacity

namespace Operation

variable {α : Type}

/-- An operation on grids. -/
def onGrids (A : Arithmetic α) : Operation → List (Grid α) → Except EvalFault (Grid α)
  | .plus, [x, y] => joined (Grid.zipWith? A.add x y)
  | .minus, [x, y] => joined (Grid.zipWith? A.sub x y)
  | .negate, [x] => .ok (x.map A.neg)
  | .times, [x, y] => joined (Grid.zipWith? A.mul x y)
  | .divide, [x, y] => joined (Grid.zipWith? A.div x y)
  | .power, [x, y] => 
      joined (Grid.zipWith? (A.power (y.shape.holdsFor x.shape)) x y)
  | .log, [x, y] => joined (Grid.zipWith? A.log x y)
  | .mean, x :: xs => combined A.meanOf (x :: xs)
  | .variance, x :: xs => combined A.varianceOf (x :: xs)
  | .mean, [] => .error (.noOperands Operation.mean.symbol)
  | .variance, [] => .error (.noOperands Operation.variance.symbol)
  | o, xs => .error (.operandCount o.symbol xs.length)
where
  joined : Option (Grid α) → Except EvalFault (Grid α)
    | some g => .ok g
    | none => .error .shapeMismatch
  combined (f : Bool → List α → α) (gs : List (Grid α)) : Except EvalFault (Grid α) :=
    if gs.any Grid.isDeep then .error .tooManyDimensions else joined (Grid.combine? f gs)

end Operation

namespace Formula

variable {α : Type}

mutual
/-- The value of a formula. `argument` gives the grid of the argument at a position. -/
def evaluate (A : Arithmetic α) (argument : Nat → Except EvalFault (Grid α)) :
    Formula → Except EvalFault (Grid α)
  | .const value => .ok (Grid.scalar (A.ofFloat value))
  | .var name =>
    match argumentIndex? name with
    | none => .error (.unknownName name)
    | some i => argument i
  | .apply symbol xs =>
    match Operation.ofSymbol? symbol with
    | none => .error (.unknownOperation symbol)
    | some o =>
      match evaluateAll A argument xs with
      | .error fault => .error fault
      | .ok gs => o.onGrids A gs
def evaluateAll (A : Arithmetic α) (argument : Nat → Except EvalFault (Grid α)) :
    List Formula → Except EvalFault (List (Grid α))
  | [] => .ok []
  | x :: xs =>
    match evaluate A argument x with
    | .error fault => .error fault
    | .ok g =>
      match evaluateAll A argument xs with
      | .error fault => .error fault
      | .ok gs => .ok (g :: gs)
end

/-- The argument at a position of a list, as a grid. -/
def argumentAt (arguments : List Argument) (i : Nat) : Except EvalFault (Grid Float) :=
  match arguments[i]? with
  | none => .error (.missingArgument i)
  | some a => a.toGrid.mapError .argument

/-- The value of a formula in doubles. An argument is converted each time it is read,
and one that is not read is never looked at. -/
def evaluateAt (arguments : List Argument) (t : Formula) : Except EvalFault (Grid Float) :=
  t.evaluate Arithmetic.float (argumentAt arguments)

end Formula
end Formulary
