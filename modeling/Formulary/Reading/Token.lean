import Formulary.Formula.Basic
import Formulary.Number.Literal
import Formulary.Operation
import Formulary.Text.Blank

/-!
# Tokens

A text is a sequence of brackets and words: a word is a maximal run of
characters that are neither blank nor brackets. What a word means depends on a
registry, and on which reading comes first where a symbol looks like a variable
or a literal.
-/

namespace Formulary

def isBracket (c : Char) : Bool := c == '(' || c == ')'

def isWordChar (c : Char) : Bool := !Text.isBlank c && !isBracket c

inductive Token where
  | opening
  | closing
  | word (text : List Char)
deriving DecidableEq, Repr

/-- A token and the offset of its first character. -/
structure Placed where
  token : Token
  offset : Nat
deriving DecidableEq, Repr

/-- The tokens of a text that begins at the given offset. A word is collected
character by character, each character extending the word that starts right after it. -/
def tokensFrom (offset : Nat) : List Char → List Placed
  | [] => []
  | c :: cs =>
    let later := tokensFrom (offset + 1) cs
    if Text.isBlank c then later
    else if c = '(' then ⟨.opening, offset⟩ :: later
    else if c = ')' then ⟨.closing, offset⟩ :: later
    else match later with
      | ⟨.word w, start⟩ :: more =>
        if start = offset + 1 then ⟨.word (c :: w), offset⟩ :: more
        else ⟨.word [c], offset⟩ :: later
      | _ => ⟨.word [c], offset⟩ :: later

/-- The tokens of a text. -/
def tokens (text : List Char) : List Token := (tokensFrom 0 text).map Placed.token

/-- What a word, or a whole group, contributes to the group around it. -/
inductive Item where
  | formula (t : Formula)
  | operator (symbol : String)

namespace Item

def formula? : Item → Option Formula
  | .formula t => some t
  | .operator _ => none

def operator? : Item → Option String
  | .formula _ => none
  | .operator symbol => some symbol

end Item

/-- The formula that a word stands for by itself: an argument's name or a literal. -/
def leaf? (word : List Char) : Option Formula :=
  let name := String.ofList word
  if argumentNames.contains name then some (.var name)
  else (Number.literal? word).map .const

/-- A word of a bracketed text: names and literals come before the registry. -/
def Registry.item? (r : Registry) (word : List Char) : Option Item :=
  match leaf? word with
  | some t => some (.formula t)
  | none =>
    let symbol := String.ofList word
    (r.arity? symbol).map fun _ => .operator symbol

example : tokens "(*(+ x 1) y)".toList =
    [.opening, .word ['*'], .opening, .word ['+'], .word ['x'], .word ['1'], .closing,
     .word ['y'], .closing] := by decide

end Formulary
