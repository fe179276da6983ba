import Formulary.Reading.Bracketed

/-!
# Reading by positions

The reader of bracketed texts with its loops spelled out. One position moves
through the text, a character is read at it by its index, and how far the
position moves in a turn is nowhere said. What can go wrong is kept apart: a
defect of the text, a character asked for behind the end of the text, and more
turns than were allowed. The turns allowed bound how deep the calls nest, a turn
of a loop being a call.
-/

namespace Formulary.Positional

/-- Why there is no result. -/
inductive Halt where
  | defect (e : ParseError)
  /-- a character was asked for where there is none -/
  | pastEnd (position : Nat)
  | outOfTurns
deriving DecidableEq

/-- What was read: a formula, or an operation's symbol and where it stands. -/
inductive Found where
  | formula (t : Formula)
  | operator (symbol : String) (position : Nat)

namespace Found

def item : Found → Item
  | .formula t => .formula t
  | .operator symbol _ => .operator symbol

/-- An item that was read at a position. -/
def placed (position : Nat) : Item → Found
  | .formula t => .formula t
  | .operator symbol => .operator symbol position

/-- The same in a text that has `n` characters more in front. -/
def shift (n : Nat) : Found → Found
  | .formula t => .formula t
  | .operator symbol position => .operator symbol (position + n)

end Found

def charAt (text : List Char) (i : Nat) : Except Halt Char :=
  match text[i]? with
  | some ch => .ok ch
  | none => .error (.pastEnd i)

/-- The character at a position, or none at the end. -/
def peek (text : List Char) (i : Nat) : Except Halt (Option Char) :=
  if text.length ≤ i then .ok none else (charAt text i).map some

/-- The position behind the characters that satisfy `p`. -/
def skipWhile (p : Char → Bool) (text : List Char) : Nat → Nat → Except Halt Nat
  | 0, _ => .error .outOfTurns
  | turns + 1, i =>
    if text.length ≤ i then .ok i
    else do
      let ch ← charAt text i
      if p ch then skipWhile p text turns (i + 1) else .ok i

/-- The items of a group and the position behind its closing bracket, given where the loop over
the items came to a stop: at the bracket, or at the end of the text. -/
def behindClosing (text : List Char) : List Item × Nat → Except Halt (List Item × Nat)
  | (items, i) =>
    if text.length ≤ i then .error (.defect ⟨.unclosedGroup, i⟩) else .ok (items, i + 1)

mutual
/-- One token at a position: a word, or a whole group. -/
def item (d : Dialect) (text : List Char) : Nat → Nat → Except Halt (Found × Nat)
  | 0, _ => .error .outOfTurns
  | turns + 1, start => do
    if (← peek text start) = some '(' then group d text turns start
    else
      let stop ← skipWhile isWordChar text turns start
      let word := text.extract start stop
      if word = [] then .error (.defect ⟨.emptyToken, start⟩)
      else match d.registry.item? word with
        | none => .error (.defect ⟨.unknownToken (String.ofList word), start⟩)
        | some i => .ok (Found.placed start i, stop)

/-- A group whose opening bracket is at a position. -/
def group (d : Dialect) (text : List Char) : Nat → Nat → Except Halt (Found × Nat)
  | 0, _ => .error .outOfTurns
  | turns + 1, start => do
    let inside ← skipWhile Text.isBlank text turns (start + 1)
    let (items, stop) ← members d text turns inside >>= behindClosing text
    match d.close items with
    | .error defect => .error (.defect ⟨defect, start⟩)
    | .ok t => .ok (.formula t, stop)

/-- The items up to a closing bracket or the end of the text, and the position of that. -/
def members (d : Dialect) (text : List Char) : Nat → Nat → Except Halt (List Item × Nat)
  | 0, _ => .error .outOfTurns
  | turns + 1, i => do
    let ahead ← peek text i
    if ahead = none ∨ ahead = some ')' then .ok ([], i)
    else
      let (found, behind) ← item d text turns i
      let next ← skipWhile Text.isBlank text turns behind
      let (items, stop) ← members d text turns next
      .ok (found.item :: items, stop)
end

/-- The formula that a whole text spells. -/
def parse (d : Dialect) (text : List Char) (turns : Nat) : Except Halt Formula := do
  let start ← skipWhile Text.isBlank text turns 0
  let (found, behind) ← item d text turns start
  let stop ← skipWhile Text.isBlank text turns behind
  if stop < text.length then .error (.defect ⟨.textLeftOver, stop⟩)
  else match found with
    | .operator symbol position => .error (.defect ⟨.bareOperation symbol, position⟩)
    | .formula t => .ok t

end Formulary.Positional
