import Formulary.Formula.Writing
import Formulary.Reading.Token

/-!
# Reading flat texts

A flat text is a run of words without brackets, reduced on a stack: leaves are
pushed, and an operation takes operands from the top. Nothing is refused. A word
that means nothing is set aside, an operation takes what it finds, and what is
left over stays on the stack; the formula is the item at the bottom.

An operation of arity `k` finds all its operands when the stack has at least
`k` items. With fewer, it takes as many items as are missing, or all of them if
there are not that many.
-/

namespace Formulary.Flat

/-- The number of items that an operation takes from a stack of the given height. -/
def takeCount (arity : Arity) (height : Nat) : Nat :=
  match arity with
  | .variadic => height
  | .exactly k => if k ≤ height then k else min height (k - height)

theorem takeCount_le (arity : Arity) (height : Nat) : takeCount arity height ≤ height := by
  cases arity with
  | variadic => exact Nat.le_refl _
  | exactly k =>
      simp only [takeCount]
      split <;> omega

/-- A reduction under way: the stack, its top first, and the words set aside, the last first. -/
structure Reduction where
  stack : List Formula
  ignored : List String

def Reduction.empty : Reduction := ⟨[], []⟩

namespace Reduction

/-- An operation takes its operands from the top and is pushed in their place. -/
def reduce (s : Reduction) (symbol : String) (arity : Arity) : Reduction :=
  let n := takeCount arity s.stack.length
  { s with stack := .apply symbol (s.stack.take n).reverse :: s.stack.drop n }

/-- One word: a registered symbol, then a name or a literal, else set aside. -/
def step (r : Registry) (s : Reduction) (word : List Char) : Reduction :=
  let symbol := String.ofList word
  match r.arity? symbol with
  | some arity => s.reduce symbol arity
  | none =>
    match leaf? word with
    | some t => { s with stack := t :: s.stack }
    | none => { s with ignored := symbol :: s.ignored }

def run (r : Registry) (words : List (List Char)) : Reduction := words.foldl (step r) empty

end Reduction

/-- What a flat text was read as. -/
structure Outcome where
  /-- the item at the bottom of the stack -/
  formula? : Option Formula
  /-- the number of items on the stack -/
  height : Nat
  ignored : List String

def parse (r : Registry) (text : String) : Outcome :=
  let s := Reduction.run r (Text.words text.toList)
  ⟨s.stack.getLast?, s.stack.length, s.ignored.reverse⟩

example : ((parse Registry.standard "2 5 11 var x *").formula?.map (·.toText .first)) =
    some "(* (var 2 5 11) x)" := by decide +kernel
example : takeCount (.exactly 3) 2 = 1 ∧ takeCount (.exactly 7) 3 = 3 := by decide

end Formulary.Flat
