import Formulary.Formula.Traversal
import Formulary.Formula.Writing
import Formulary.Operation
import Formulary.Value.Evaluation

/-!
# Valid formulas

A formula is valid for a registry when every constant is finite, every name
reads an argument, and every operation is registered and has a number of
operands that it takes. Problems are listed in pre-order. With arguments given,
a valid formula must also have a finite value there.
-/

namespace Formulary

/-- A reason why a formula is not valid. -/
inductive Problem where
  | nonFinite (value : Float)
  | unknownName (name : String)
  | unknownOperation (symbol : String)
  | operandCount (symbol : String) (count : Nat)
deriving DecidableEq, Repr

def Problem.message : Problem → String
  | .nonFinite value => "non-finite constant " ++ String.ofList (Number.constant value)
  | .unknownName name => "unknown variable " ++ Text.quote name
  | .unknownOperation symbol => "unknown operation " ++ Text.quote symbol
  | .operandCount symbol count =>
      "operation " ++ Text.quote symbol ++ " has " ++ toString count ++ " operands"

namespace Formula

/-- The problem of a node by itself. -/
def problem? (r : Registry) : Formula → Option Problem
  | .const value => if value.isFinite then none else some (.nonFinite value)
  | .var name => if argumentNames.contains name then none else some (.unknownName name)
  | .apply symbol xs =>
    match r.arity? symbol with
    | none => some (.unknownOperation symbol)
    | some arity =>
      if arity.admits xs.length then none else some (.operandCount symbol xs.length)

/-- All problems, in pre-order. -/
def problems (r : Registry) (t : Formula) : List Problem :=
  (t.nodes .depthFirst).filterMap (problem? r)

end Formula

/-- Whether a failed evaluation only shows that the formula has no value there. Unknown
operations, integers too large for a double and means of grids with too many dimensions
are faults of their own. -/
def EvalFault.meansNoValue : EvalFault → Bool
  | .unknownOperation _ => false
  | .argument .oversized => false
  | .tooManyDimensions => false
  | _ => true

namespace Formula

/-- Whether a formula has a finite value at some arguments. -/
def isFiniteAt (arguments : List Argument) (t : Formula) : Except EvalFault Bool :=
  match t.evaluateAt arguments with
  | .ok g => .ok (g.entries.all Float.isFinite)
  | .error fault => if fault.meansNoValue then .ok false else .error fault

/-- Whether a formula is valid, and has a finite value if arguments are given. Operations are
evaluated as the standard ones whatever the registry says. -/
def isValid (r : Registry) (arguments : Option (List Argument)) (t : Formula) :
    Except EvalFault Bool :=
  if t.problems r ≠ [] then .ok false
  else match arguments with
    | none => .ok true
    | some given => t.isFiniteAt given

/-- Whether there is a formula at all, and it is valid. -/
def isValidIfAny (r : Registry) (arguments : Option (List Argument)) :
    Option Formula → Except EvalFault Bool
  | none => .ok false
  | some t => t.isValid r arguments

end Formula
end Formulary
