import Formulary.Reading.Bracketed

/-!
# Reading backwards

Read from its end with the brackets exchanged, a text of one bracketed notation
is a text of the other. The formula that it spells has the operands of every
operation in reverse.
-/

namespace Formulary

def Placement.opposite : Placement → Placement
  | .first => .last
  | .last => .first

namespace Token

/-- The token met when reading from the other end. -/
def turned : Token → Token
  | .opening => .closing
  | .closing => .opening
  | .word text => .word text

/-- The characters of a token. -/
def text : Token → List Char
  | .opening => ['(']
  | .closing => [')']
  | .word text => text

end Token

/-- The tokens of a text from the last to the first, with one space between neighbours. -/
def backwards (text : List Char) : List Char :=
  Formula.spaced ((tokens text).reverse.map fun t => t.turned.text)

namespace Formula

mutual
/-- The formula with the operands of every operation in reverse. -/
def reversed : Formula → Formula
  | .const value => .const value
  | .var name => .var name
  | .apply symbol xs => .apply symbol (reversedAll xs)
def reversedAll : List Formula → List Formula
  | [] => []
  | x :: xs => reversedAll xs ++ [reversed x]
end

theorem reversedAll_eq (xs : List Formula) : reversedAll xs = (xs.map reversed).reverse := by
  induction xs with
  | nil => rfl
  | cons x xs ih => simp [reversedAll, ih]

end Formula

example : backwards "(+ x (- y 1))".toList = "( ( 1 y - ) x + )".toList := by decide +kernel

end Formulary
