import Formulary.Formula.Writing
import Formulary.Reading.Defect
import Formulary.Reading.Token

/-!
# Reading bracketed texts

Recursive descent over the characters. A group collects the items between its
brackets without asking what they are; only its closing bracket decides whether
they make an operation. So the first defect met in the text is the one
reported, and the defects of a group are reported at its opening bracket.

Every step returns a cursor that has moved forward, which is why reading ends.
-/

namespace Formulary

/-- What a bracketed notation leaves open: which symbols are operations, and where a group
has its own. -/
structure Dialect where
  placement : Placement
  registry : Registry

/-- A place in a text: the offset in characters, and the characters from there on. -/
structure Cursor where
  offset : Nat
  rest : List Char

namespace Cursor

def start (text : List Char) : Cursor := ⟨0, text⟩

/-- The cursor after the characters that satisfy `p`. -/
def skipWhile (p : Char → Bool) (c : Cursor) : Cursor :=
  ⟨c.offset + (c.rest.takeWhile p).length, c.rest.dropWhile p⟩

def skipBlank (c : Cursor) : Cursor := c.skipWhile Text.isBlank

/-- The cursor after one character of a text whose remainder is `rest`. -/
def next (c : Cursor) (rest : List Char) : Cursor := ⟨c.offset + 1, rest⟩

theorem length_skipWhile_le (p : Char → Bool) (c : Cursor) :
    (c.skipWhile p).rest.length ≤ c.rest.length :=
  (List.dropWhile_sublist p).length_le

theorem length_skipBlank_le (c : Cursor) : c.skipBlank.rest.length ≤ c.rest.length :=
  length_skipWhile_le _ c

end Cursor

/-- A result together with the cursor behind what was read, which is beyond `c`. -/
abbrev Read (α : Type) (c : Cursor) := { r : α × Cursor // r.2.rest.length < c.rest.length }

namespace Dialect

/-- Where the operator of a group must stand among its items. -/
def operatorIndex (d : Dialect) (operandCount : Nat) : Nat :=
  match d.placement with
  | .first => 0
  | .last => operandCount

/-- The operation that a closed group makes of its items. -/
def close (d : Dialect) (items : List Item) : Except Defect Formula :=
  let operands := items.filterMap Item.formula?
  match items.filterMap Item.operator? with
  | [symbol] =>
    let index := items.findIdx fun i => i.operator?.isSome
    if index ≠ d.operatorIndex operands.length then .error (.operationPosition symbol)
    else if ((d.registry.arity? symbol).map (·.admits operands.length)).getD false then
      .ok (.apply symbol operands)
    else .error (.argumentCount operands.length symbol)
  | symbols => .error (.operationCount symbols.length)

/-- A word at the cursor, which must not be empty. -/
def word (d : Dialect) (c : Cursor) : Except ParseError (Read Item c) :=
  let text := c.rest.takeWhile isWordChar
  if h : text = [] then .error ⟨.emptyToken, c.offset⟩
  else match d.registry.item? text with
    | none => .error ⟨.unknownToken (String.ofList text), c.offset⟩
    | some i => .ok ⟨(i, c.skipWhile isWordChar), by
        have hl : c.rest.length = text.length + (c.rest.dropWhile isWordChar).length := by
          rw [← List.length_append, List.takeWhile_append_dropWhile]
        have ht : 0 < text.length := List.length_pos_iff.mpr h
        simp only [Cursor.skipWhile]
        omega⟩

mutual
/-- One token at the cursor: a word, or a whole group. -/
def item (d : Dialect) (c : Cursor) : Except ParseError (Read Item c) :=
  match hc : c.rest with
  | '(' :: rest =>
    match members d (c.next rest).skipBlank with
    | .error e => .error e
    | .ok ⟨(items, c'), h⟩ =>
      match d.close items with
      | .error defect => .error ⟨defect, c.offset⟩
      | .ok t => .ok ⟨(.formula t, c'), by
          have := (c.next rest).length_skipBlank_le
          simp only [Cursor.next, hc, List.length_cons] at *
          omega⟩
  | _ => d.word c
termination_by (c.rest.length, 0)
decreasing_by
  have := (c.next rest).length_skipBlank_le
  left
  simp only [Cursor.next, hc, List.length_cons] at *
  omega

/-- The items up to the closing bracket, which is read too. -/
def members (d : Dialect) (c : Cursor) : Except ParseError (Read (List Item) c) :=
  match hc : c.rest with
  | [] => .error ⟨.unclosedGroup, c.offset⟩
  | ')' :: rest => .ok ⟨([], c.next rest), by simp [Cursor.next, hc]⟩
  | _ :: _ =>
    match item d c with
    | .error e => .error e
    | .ok ⟨(i, c'), h⟩ =>
      match members d c'.skipBlank with
      | .error e => .error e
      | .ok ⟨(items, c''), h'⟩ => .ok ⟨(i :: items, c''), by
          have := c'.length_skipBlank_le
          simp only at *
          omega⟩
termination_by (c.rest.length, 1)
decreasing_by
  · exact Prod.Lex.right _ (by decide)
  · have := c'.length_skipBlank_le
    simp only at h
    omega
end

/-- The formula that a whole text spells. -/
def parseChars (d : Dialect) (text : List Char) : Except ParseError Formula :=
  let c := (Cursor.start text).skipBlank
  match d.item c with
  | .error e => .error e
  | .ok ⟨(i, c'), _⟩ =>
    let c'' := c'.skipBlank
    if c''.rest ≠ [] then .error ⟨.textLeftOver, c''.offset⟩
    else match i with
      | .operator symbol => .error ⟨.bareOperation symbol, c.offset⟩
      | .formula t => .ok t

def parse (d : Dialect) (text : String) : Except ParseError Formula := d.parseChars text.toList

/-- The notation with the standard operations and the given placement. -/
def standard (p : Placement) : Dialect := ⟨p, Registry.standard⟩

end Dialect
end Formulary
