/-!
# Operations

The nine operations of a formula, the number of operands each takes, and
registries: which symbols a reader knows, and their arities.
-/

namespace Formulary

/-- How many operands an operation takes. -/
inductive Arity where
  /-- any number, but at least one -/
  | variadic
  | exactly (count : Nat)
deriving DecidableEq, Repr

namespace Arity

/-- Zero stands for any number; no count of operands is negative, so a negative
number leaves no operand to take. -/
def ofInt (n : Int) : Arity := if n = 0 then .variadic else .exactly n.toNat

def toNat : Arity → Nat
  | .variadic => 0
  | .exactly n => n

/-- Whether an operation of this arity may have `count` operands. -/
def admits (a : Arity) (count : Nat) : Bool :=
  count != 0 && match a with
    | .variadic => true
    | .exactly n => n == count

end Arity

/-- The kinds of parameter that a function may declare. -/
inductive Parameter where
  | positionalOnly
  | positional
  /-- collects all further positional arguments -/
  | rest
  | named
  /-- collects all further named arguments -/
  | namedRest
deriving DecidableEq, Repr

/-- The arity of a function: the number of its positional parameters, unless one of
its parameters collects the rest. -/
def Arity.ofParameters (params : List Parameter) : Arity :=
  if params.contains .rest then .variadic
  else .exactly (params.countP fun p => p == .positionalOnly || p == .positional)

inductive Operation where
  | plus
  | minus
  | negate
  | times
  | divide
  | power
  /-- the logarithm to the base of the first operand, signs ignored -/
  | log
  | mean
  /-- the population variance -/
  | variance
deriving DecidableEq, Repr

namespace Operation

/-- All operations, in the order in which they are registered. -/
def all : List Operation :=
  [.plus, .minus, .negate, .times, .divide, .power, .log, .mean, .variance]

def symbol : Operation → String
  | .plus => "+"
  | .minus => "-"
  | .negate => "negate"
  | .times => "*"
  | .divide => "/"
  | .power => "pow"
  | .log => "log"
  | .mean => "mean"
  | .variance => "var"

def parameters : Operation → List Parameter
  | .negate => [.positional]
  | .mean | .variance => [.rest]
  | _ => [.positional, .positional]

def arity (op : Operation) : Arity := Arity.ofParameters op.parameters

def ofSymbol? (symbol : String) : Option Operation := all.find? fun op => op.symbol == symbol

@[simp] theorem ofSymbol?_symbol (op : Operation) : ofSymbol? op.symbol = some op := by
  cases op <;> decide

theorem symbol_of_ofSymbol? {symbol : String} {op : Operation}
    (h : ofSymbol? symbol = some op) : op.symbol = symbol := by
  simpa using List.find?_some h

end Operation

/-- The symbols that a reader takes for operations, with their arities. -/
structure Registry where
  entries : List (String × Arity)

namespace Registry

def arity? (r : Registry) (symbol : String) : Option Arity := r.entries.lookup symbol

/-- The registry of the nine operations. -/
def standard : Registry where
  entries := Operation.all.map fun op => (op.symbol, op.arity)

/-- The symbols of a registry in code point order, with their arities. -/
def sorted (r : Registry) : List (String × Arity) :=
  r.entries.mergeSort fun a b => decide (a.1 ≤ b.1)

/-- The standard registry knows exactly the operations' symbols. -/
theorem standard_arity? (symbol : String) :
    standard.arity? symbol = (Operation.ofSymbol? symbol).map Operation.arity := by
  have h : ∀ ops : List Operation,
      (ops.map fun op => (op.symbol, op.arity)).lookup symbol =
        (ops.find? fun op => op.symbol == symbol).map Operation.arity := by
    intro ops
    induction ops with
    | nil => rfl
    | cons op ops ih =>
        simp only [List.map_cons, List.lookup_cons, List.find?_cons, ih]
        rw [Bool.beq_comm]
        cases h : symbol == op.symbol <;> simp [h, Bool.beq_comm]
  exact h Operation.all

end Registry
end Formulary
