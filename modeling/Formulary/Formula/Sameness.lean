import Formulary.Formula.Basic

/-!
# When two formulas are the same

Formulas are compared by shape, symbols, names and the values of their
constants. Values are compared as numbers, so the two zeros are the same. A
constant that is no number differs from every other one but is the same as
itself; whether two formulas can share one is known from where they were made.

The digest of a formula is what stands for it in a hash: equal formulas have
equal digests, and a constant enters by its residue only.
-/

namespace Formulary

/-- What stands for a formula in a hash. -/
inductive Digest where
  | const (residue : Int)
  /-- a constant that is no number, known by where it was made -/
  | noNumber (origin : Nat)
  | var (name : String)
  | apply (symbol : String) (operands : List Digest)
deriving BEq

namespace Formula

/-- Two constants; when both are no numbers, `shared` tells whether they are one and the same. -/
def sameValue (shared : Bool) (a b : Float) : Bool :=
  a == b || (shared && a.isNaN && b.isNaN)

mutual
/-- Whether two formulas are the same. -/
def same (shared : Bool) : Formula → Formula → Bool
  | .const a, .const b => sameValue shared a b
  | .var a, .var b => a == b
  | .apply s xs, .apply u ys => s == u && sameAll shared xs ys
  | _, _ => false
def sameAll (shared : Bool) : List Formula → List Formula → Bool
  | [], [] => true
  | x :: xs, y :: ys => same shared x y && sameAll shared xs ys
  | _, _ => false
end

mutual
/-- The digest of a formula made at the given origin. -/
def digest (origin : Nat) : Formula → Digest
  | .const value => if value.isNaN then .noNumber origin else .const (Binary64.residue value)
  | .var name => .var name
  | .apply symbol xs => .apply symbol (digestAll origin xs)
def digestAll (origin : Nat) : List Formula → List Digest
  | [] => []
  | x :: xs => digest origin x :: digestAll origin xs
end

mutual
/-- Whether no constant is a non-number. -/
def nanFree : Formula → Bool
  | .const value => !value.isNaN
  | .var _ => true
  | .apply _ xs => nanFreeAll xs
def nanFreeAll : List Formula → Bool
  | [] => true
  | x :: xs => nanFree x && nanFreeAll xs
end

end Formula
end Formulary
