import Formulary.Reading.Bracketed

/-!
# The earliest defect

A single pass over the tokens of a bracketed text that stops at the first
defect. The pass builds no formula: of every group that is still open it keeps
where the group was opened and which of its items were operations.
-/

namespace Formulary

/-- What a pass keeps of an item. -/
inductive Mark where
  | operand
  | operator (symbol : String)
deriving DecidableEq, Repr

def Mark.symbol? : Mark → Option String
  | .operand => none
  | .operator symbol => some symbol

/-- A group that is not closed yet. -/
structure OpenGroup where
  /-- where it was opened -/
  offset : Nat
  /-- its items so far, the last one first -/
  marks : List Mark

/-- How far a pass has come. -/
inductive Progress where
  /-- inside groups, the innermost first; there may be none yet -/
  | within (groups : List OpenGroup)
  /-- behind a first whole item, which began at `offset` -/
  | beyond (mark : Mark) (offset : Nat)

namespace Progress

/-- A whole item goes into the innermost group, or it is the first one of the text. -/
def put (groups : List OpenGroup) (mark : Mark) (offset : Nat) : Progress :=
  match groups with
  | [] => .beyond mark offset
  | g :: gs => .within ({ g with marks := mark :: g.marks } :: gs)

/-- The item that is to be the operation of a group, given its items with the last one first. -/
def edge (p : Placement) (marks : List Mark) : Option Mark :=
  match p with
  | .first => marks.getLast?
  | .last => marks.head?

/-- What is wrong with the number of operands of an operation. -/
def countDefect? (d : Dialect) (symbol : String) (operandCount : Nat) : Option Defect :=
  match d.registry.arity? symbol with
  | some .variadic => if operandCount = 0 then some (.argumentCount 0 symbol) else none
  | some (.exactly n) =>
    if operandCount = 0 ∨ operandCount ≠ n then some (.argumentCount operandCount symbol)
    else none
  | none => some (.argumentCount operandCount symbol)

/-- What is wrong with the items of a group that is closed, given the last one first: too
few or too many operations, one in the wrong place, or a wrong number of operands. -/
def groupDefect? (d : Dialect) (marks : List Mark) : Option Defect :=
  match marks.findSome? Mark.symbol? with
  | none => some (.operationCount 0)
  | some symbol =>
    let count := marks.countP fun m => m.symbol?.isSome
    if count ≠ 1 then some (.operationCount count)
    else if edge d.placement marks ≠ some (.operator symbol) then
      some (.operationPosition symbol)
    else countDefect? d symbol (marks.length - 1)

/-- What a word is in a dialect, if it is anything. -/
def mark? (d : Dialect) (word : List Char) : Option Mark :=
  let name := String.ofList word
  if name ∈ argumentNames ∨ (Number.integer? word).isSome then some .operand
  else if (d.registry.arity? name).isSome then some (.operator name)
  else none

/-- One token. -/
def step (d : Dialect) : Progress → Placed → Except ParseError Progress
  | .beyond _ _, ⟨_, offset⟩ => .error ⟨.textLeftOver, offset⟩
  | .within groups, ⟨.opening, offset⟩ => .ok (.within (⟨offset, []⟩ :: groups))
  | .within [], ⟨.closing, offset⟩ => .error ⟨.emptyToken, offset⟩
  | .within (g :: gs), ⟨.closing, _⟩ =>
    match groupDefect? d g.marks with
    | some defect => .error ⟨defect, g.offset⟩
    | none => .ok (put gs .operand g.offset)
  | .within groups, ⟨.word word, offset⟩ =>
    match mark? d word with
    | none => .error ⟨.unknownToken (String.ofList word), offset⟩
    | some mark => .ok (put groups mark offset)

/-- The end of a text of the given length. -/
def atEnd (length : Nat) : Progress → Except ParseError Unit
  | .within [] => .error ⟨.emptyToken, length⟩
  | .within (_ :: _) => .error ⟨.unclosedGroup, length⟩
  | .beyond (.operator symbol) offset => .error ⟨.bareOperation symbol, offset⟩
  | .beyond .operand _ => .ok ()

end Progress

/-- A whole pass: the first defect, if there is one. -/
def Dialect.check (d : Dialect) (text : List Char) : Except ParseError Unit := do
  let p ← (tokensFrom 0 text).foldlM (Progress.step d) (.within [])
  p.atEnd text.length

example : ((Dialect.standard .first).check "(+ x (y 1 -) foo".toList).toOption = none := by
  decide +kernel

end Formulary
