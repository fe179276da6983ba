import Formulary.Number.Binary64

/-!
# Formulas

A formula is a constant, a named argument, or an operation symbol applied to a
list of operands. Nothing is checked when one is built: a symbol need not name
an operation, and any number of operands is allowed.
-/

namespace Formulary

inductive Formula where
  | const (value : Float)
  | var (name : String)
  | apply (symbol : String) (operands : List Formula)
deriving Repr, Inhabited

/-- The names that read an argument, by position. -/
def argumentNames : List String := ["x", "y", "z"]

/-- The position of the argument that a name reads. -/
def argumentIndex? (name : String) : Option Nat := argumentNames.findIdx? (· == name)

namespace Formula

/-- What a formula is applied to; leaves have no operands. -/
def operands : Formula → List Formula
  | .const _ => []
  | .var _ => []
  | .apply _ xs => xs

mutual
/-- The number of nodes. -/
def size : Formula → Nat
  | .const _ => 1
  | .var _ => 1
  | .apply _ xs => 1 + sizeAll xs
def sizeAll : List Formula → Nat
  | [] => 0
  | x :: xs => size x + sizeAll xs
end

mutual
/-- The number of levels; a leaf has one, and so has an operation without operands. -/
def depth : Formula → Nat
  | .const _ => 1
  | .var _ => 1
  | .apply _ xs => 1 + depthAll xs
def depthAll : List Formula → Nat
  | [] => 0
  | x :: xs => max (depth x) (depthAll xs)
end

theorem sizeAll_append (xs ys : List Formula) :
    sizeAll (xs ++ ys) = sizeAll xs + sizeAll ys := by
  induction xs with
  | nil => simp [sizeAll]
  | cons x xs ih => simp [sizeAll, ih, Nat.add_assoc]

theorem sizeAll_eq_foldr (xs : List Formula) : sizeAll xs = (xs.map size).foldr (· + ·) 0 := by
  induction xs with
  | nil => rfl
  | cons x xs ih => rw [sizeAll, ih, List.map_cons, List.foldr_cons]

theorem size_eq (t : Formula) : t.size = 1 + sizeAll t.operands := by
  cases t <;> simp [size, operands, sizeAll]

def zero : Formula := .const 0
def one : Formula := .const 1

def two : Formula := .const 2
def euler : Formula := .const Binary64.eulerNumber

end Formula
end Formulary
