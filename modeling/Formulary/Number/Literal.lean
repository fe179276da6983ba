import Formulary.Number.Binary64
import Formulary.Number.Digits

/-!
# Integer literals

A literal of a formula is an optional sign followed by ASCII digits. It stands
for the double nearest to the integer it spells, ties to even; an integer past
the largest double is infinite, and a minus sign on zero is kept.
-/

namespace Formulary.Number

/-- The sign of a text, negative or not, and what follows it. -/
def splitSign : List Char → Bool × List Char
  | '+' :: cs => (false, cs)
  | '-' :: cs => (true, cs)
  | cs => (false, cs)

def isDigits (cs : List Char) : Bool := !cs.isEmpty && cs.all Char.isDigit

/-- Sign and absolute value of an integer literal. -/
def integer? (cs : List Char) : Option (Bool × Nat) :=
  let (negative, ds) := splitSign cs
  if isDigits ds then some (negative, ofDigits ds) else none

/-- The double that an integer literal stands for. -/
def literal? (cs : List Char) : Option Float :=
  (integer? cs).map fun (negative, n) => Binary64.ofRatio negative n 1

end Formulary.Number
