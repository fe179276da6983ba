import Formulary.Formula.Basic
import Formulary.Operation
import Formulary.Value.Arithmetic

/-!
# The meaning of a formula

What a formula says, read as mathematics: sums are plain sums, a mean is a sum
over a count, and the constant nearest to the base of the natural logarithm
means that base itself. The meaning is taken at a point, in any arithmetic.
-/

namespace Formulary

/-- Why a formula means nothing. -/
inductive MeaningFault where
  | unknownOperation (symbol : String)
  | operandCount (symbol : String) (count : Nat)
deriving DecidableEq, Repr

namespace Arithmetic

variable {α : Type} (A : Arithmetic α)

/-- A plain sum. -/
def sum (terms : List α) : α := terms.foldl A.add (A.ofNat 0)

def average (terms : List α) : α := A.div (A.sum terms) (A.ofNat terms.length)

end Arithmetic

/-- What an operation means; none when it does not take that many operands. -/
def Operation.means? {α : Type} (A : Arithmetic α) : Operation → List α → Option α
  | .plus, [x, y] => some (A.add x y)
  | .minus, [x, y] => some (A.sub x y)
  | .negate, [x] => some (A.neg x)
  | .times, [x, y] => some (A.mul x y)
  | .divide, [x, y] => some (A.div x y)
  | .power, [x, y] => some (A.pow x y)
  | .log, [x, y] => some (A.log x y)
  | .mean, xs => some (A.average xs)
  | .variance, xs => some (A.sub (A.average (xs.map A.square)) (A.square (A.average xs)))
  | _, _ => none

namespace Formula

variable {α : Type}

mutual
/-- The meaning of a formula at a point. -/
def meaning (A : Arithmetic α) (point : String → α) : Formula → Except MeaningFault α
  | .const value => .ok (if value == Binary64.eulerNumber then A.euler else A.ofFloat value)
  | .var name => .ok (point name)
  | .apply symbol xs =>
    match Operation.ofSymbol? symbol with
    | none => .error (.unknownOperation symbol)
    | some o =>
      match meanings A point xs with
      | .error fault => .error fault
      | .ok values =>
        match o.means? A values with
        | none => .error (.operandCount symbol xs.length)
        | some v => .ok v
def meanings (A : Arithmetic α) (point : String → α) :
    List Formula → Except MeaningFault (List α)
  | [] => .ok []
  | x :: xs =>
    match meaning A point x with
    | .error fault => .error fault
    | .ok v =>
      match meanings A point xs with
      | .error fault => .error fault
      | .ok vs => .ok (v :: vs)
end

/-- A point given by the values of the named arguments; further names are zero. -/
def pointOf (zero : α) (values : List α) (name : String) : α :=
  match argumentIndex? name with
  | none => zero
  | some i => values.getD i zero

end Formula
end Formulary
