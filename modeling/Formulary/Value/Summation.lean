import Formulary.Value.Arithmetic

/-!
# Summation

Sums of doubles depend on their order. Where many sums are taken side by side
the terms are added one after the other (`running`). A single sum is taken in
blocks (`blockwise`): few terms in a row, up to 128 terms in eight lanes that
are joined at the end, and more terms in two halves.
-/

namespace Formulary.Arithmetic

variable {α : Type} (A : Arithmetic α)

def zero : α := A.ofFloat 0
def negZero : α := A.ofFloat Binary64.negZero

/-- The terms added in a row to a start value. -/
def sumFrom (start : α) (terms : List α) : α := terms.foldl A.add start

/-- Eight partial sums. -/
structure Lanes (α : Type) where
  l0 : α
  l1 : α
  l2 : α
  l3 : α
  l4 : α
  l5 : α
  l6 : α
  l7 : α

/-- The eight lanes joined pairwise. -/
def joinLanes (l : Lanes α) : α :=
  A.add (A.add (A.add l.l0 l.l1) (A.add l.l2 l.l3)) (A.add (A.add l.l4 l.l5) (A.add l.l6 l.l7))

/-- Every full block of eight terms is added to the lanes term by term; the remaining
terms are added in a row to the joined lanes. -/
def sumLanes (l : Lanes α) : List α → α
  | x0 :: x1 :: x2 :: x3 :: x4 :: x5 :: x6 :: x7 :: xs =>
    sumLanes
      ⟨A.add l.l0 x0, A.add l.l1 x1, A.add l.l2 x2, A.add l.l3 x3,
       A.add l.l4 x4, A.add l.l5 x5, A.add l.l6 x6, A.add l.l7 x7⟩ xs
  | xs => A.sumFrom (A.joinLanes l) xs

/-- A sum of at most 128 terms. -/
def sumBlock : List α → α
  | x0 :: x1 :: x2 :: x3 :: x4 :: x5 :: x6 :: x7 :: xs =>
    A.sumLanes ⟨x0, x1, x2, x3, x4, x5, x6, x7⟩ xs
  | xs => A.sumFrom A.negZero xs

/-- Half of a number of terms, rounded down to full blocks. -/
def halfInBlocks (n : Nat) : Nat := n / 2 - n / 2 % 8

/-- A sum of any number of terms. -/
def sumHalves (terms : List α) : α :=
  if _h : 128 < terms.length then
    let n := halfInBlocks terms.length
    A.add (sumHalves (terms.take n)) (sumHalves (terms.drop n))
  else A.sumBlock terms
termination_by terms.length
decreasing_by
  all_goals simp only [halfInBlocks, List.length_take, List.length_drop]; omega

/-- A sum that is taken beside others. -/
def running (terms : List α) : α := A.sumFrom A.zero terms

/-- A sum that is taken alone. -/
def blockwise (terms : List α) : α := A.add A.zero (A.sumHalves terms)

/-- The mean of the terms; `alone` tells whether it is the only one that is taken. -/
def meanOf (alone : Bool) (terms : List α) : α :=
  A.div (if alone then A.blockwise terms else A.running terms) (A.ofNat terms.length)

/-- The mean of the squares minus the square of the mean. -/
def varianceOf (alone : Bool) (terms : List α) : α :=
  A.sub (A.meanOf alone (terms.map A.square)) (A.square (A.meanOf alone terms))

example : (Arithmetic.float.blockwise [Binary64.negZero]).toBits = 0 := by decide +kernel

end Formulary.Arithmetic
