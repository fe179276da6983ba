import Formulary.Formula.Basic
import Formulary.Number.Binary64
import Formulary.Operation

/-!
# Derivatives

Differentiation of formulas. A rule works on formulas that already carry their
slopes (`Dual`); its result is a formula over the operations, with nothing
simplified. The natural logarithm is written as the logarithm to the base
`Formula.euler`. The mean is differentiated as a sum over a constant count, and
the variance as the mean of the squares minus the square of the mean.
-/

namespace Formulary

namespace Formula

/-- An operation applied to operands. -/
def op (o : Operation) (xs : List Formula) : Formula := .apply o.symbol xs

def plus (x y : Formula) : Formula := op .plus [x, y]
def minus (x y : Formula) : Formula := op .minus [x, y]
def negate (x : Formula) : Formula := op .negate [x]
def times (x y : Formula) : Formula := op .times [x, y]
def divide (x y : Formula) : Formula := op .divide [x, y]
def power (x y : Formula) : Formula := op .power [x, y]
def log (x y : Formula) : Formula := op .log [x, y]
def ln (x : Formula) : Formula := log euler x
def mean (xs : List Formula) : Formula := op .mean xs
def square (x : Formula) : Formula := times x x

/-- A natural number as a constant. -/
def count (n : Nat) : Formula := .const (Binary64.ofNat n)

/-- The mean of the squares minus the square of the mean. -/
def varianceExpansion (xs : List Formula) : Formula :=
  minus (mean (xs.map square)) (square (mean xs))

end Formula

/-- A formula with its derivative. -/
structure Dual where
  formula : Formula
  slope : Formula

namespace Dual

open Formula

def plus (x y : Dual) : Dual :=
  ⟨.plus x.formula y.formula, .plus x.slope y.slope⟩

def minus (x y : Dual) : Dual :=
  ⟨.minus x.formula y.formula, .minus x.slope y.slope⟩

def negate (x : Dual) : Dual :=
  ⟨.negate x.formula, .negate x.slope⟩

def times (x y : Dual) : Dual :=
  ⟨.times x.formula y.formula, .plus (.times x.slope y.formula) (.times x.formula y.slope)⟩

def divide (x y : Dual) : Dual :=
  ⟨.divide x.formula y.formula,
   .divide (.minus (.times x.slope y.formula) (.times x.formula y.slope))
     (.times y.formula y.formula)⟩

/-- The slope of `x ^ y` is `x ^ (y - 1) * (y * x' + x * y' * ln x)`. -/
def power (x y : Dual) : Dual :=
  ⟨.power x.formula y.formula,
   .times (.power x.formula (.minus y.formula one))
     (.plus (.times y.formula x.slope)
       (.times (.times x.formula y.slope) (ln x.formula)))⟩

/-- The slope of `log x y` is `(ln x * y' / y - ln y * x' / x) / (ln x) ^ 2`. -/
def log (x y : Dual) : Dual :=
  ⟨.log x.formula y.formula,
   .divide
     (.minus
       (.times (.times (ln x.formula) y.slope) (.divide one y.formula))
       (.times (.times (ln y.formula) x.slope) (.divide one x.formula)))
     (.times (ln x.formula) (ln x.formula))⟩

def square (x : Dual) : Dual := times x x

def mean (xs : List Dual) : Dual :=
  ⟨.mean (xs.map formula),
   .divide (xs.foldl (fun total x => .plus total x.slope) zero) (count xs.length)⟩

/-- The slope of the variance is that of its expansion. -/
def variance (xs : List Dual) : Dual :=
  ⟨.op .variance (xs.map formula), (minus (mean (xs.map square)) (square (mean xs))).slope⟩

end Dual

namespace Operation

/-- An operation on formulas with slopes; none when it does not take that many operands. -/
def dual? : Operation → List Dual → Option Dual
  | .plus, [x, y] => some (.plus x y)
  | .minus, [x, y] => some (.minus x y)
  | .negate, [x] => some (.negate x)
  | .times, [x, y] => some (.times x y)
  | .divide, [x, y] => some (.divide x y)
  | .power, [x, y] => some (.power x y)
  | .log, [x, y] => some (.log x y)
  | .mean, xs => some (.mean xs)
  | .variance, xs => some (.variance xs)
  | _, _ => none

/-- Whether a rule takes this many operands. The mean and the variance take any number,
none included. -/
def differentiates (o : Operation) (operandCount : Nat) : Bool :=
  match o.arity with
  | .variadic => true
  | .exactly n => n == operandCount

end Operation

/-- Why a formula has no derivative. -/
inductive DerivativeFault where
  | unknownOperation (symbol : String)
  | operandCount (symbol : String) (count : Nat)
deriving DecidableEq, Repr

namespace Formula

/-- The slopes of all operands, or the fault of the operand that is differentiated first.
The rule for the logarithm turns to its operands from the last to the first. -/
def collect (o : Operation) (xs : List (Except DerivativeFault Dual)) :
    Except DerivativeFault (List Dual) :=
  match o with
  | .log => (xs.reverse.mapM id).map List.reverse
  | _ => xs.mapM id

mutual
/-- The derivative by a name. The symbol is looked up first, then the operands are
counted, and only then are they differentiated. -/
def derivative (name : String) : Formula → Except DerivativeFault Formula
  | .const _ => .ok zero
  | .var n => .ok (if name = n then one else zero)
  | .apply symbol xs =>
    match Operation.ofSymbol? symbol with
    | none => .error (.unknownOperation symbol)
    | some o =>
      if o.differentiates xs.length then
        match collect o (duals name xs) with
        | .error fault => .error fault
        | .ok ds =>
          match o.dual? ds with
          | none => .error (.operandCount symbol xs.length)
          | some d => .ok d.slope
      else .error (.operandCount symbol xs.length)
def duals (name : String) : List Formula → List (Except DerivativeFault Dual)
  | [] => []
  | x :: xs => (derivative name x).map (Dual.mk x) :: duals name xs
end

theorem duals_eq_map (name : String) (xs : List Formula) :
    duals name xs = xs.map fun x => (derivative name x).map (Dual.mk x) := by
  induction xs with
  | nil => rfl
  | cons x xs ih => simp [duals, ih]

/-- The derivative by each of the names in turn. -/
def derivatives (names : List String) (t : Formula) : Except DerivativeFault Formula :=
  names.foldlM (fun t name => t.derivative name) t

end Formula
end Formulary
