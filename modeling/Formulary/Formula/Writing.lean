import Formulary.Formula.Basic
import Formulary.Number.Layout
import Formulary.Text.Quoted

/-!
# Writing formulas

Four written forms. The flat form lists operands before their operation without
brackets. The bracketed forms put every operation in brackets of its own, the
symbol before or after the operands. The constructor form names the kind of
every node.

A form is written in front of the text that follows it, so that nothing is
copied on the way up. `write_apply`, `writeFlat_apply` and
`writeConstructors_apply` say what this comes to: the form of an operation is
put together from the forms of its operands.
-/

namespace Formulary

/-- Where a bracketed group has its operation symbol. -/
inductive Placement where
  | first
  | last
deriving DecidableEq, Repr

namespace Formula

/-- Texts with one space between neighbours. -/
def spaced (texts : List (List Char)) : List Char := List.intercalate [' '] texts

theorem spaced_cons (first : List Char) (texts : List (List Char)) :
    spaced (first :: texts) = first ++ texts.flatMap (' ' :: ·) := by
  induction texts generalizing first with
  | nil => simp [spaced, List.intercalate]
  | cons text texts ih =>
      have h := ih text
      simp only [spaced, List.intercalate] at h ⊢
      simp [h]

theorem spaced_append_singleton (texts : List (List Char)) (final : List Char) :
    spaced (texts ++ [final]) = texts.flatMap (· ++ [' ']) ++ final := by
  induction texts with
  | nil => simp [spaced, List.intercalate]
  | cons text texts ih =>
      rw [List.cons_append, spaced_cons]
      cases texts with
      | nil => simp
      | cons next texts =>
          rw [List.cons_append, spaced_cons] at ih
          simpa using ih

/-! ## Bracketed forms -/

/-- A group in brackets, the symbol where the placement has it. -/
def bracketed (p : Placement) (symbol : List Char) (operands : List (List Char)) : List Char :=
  match p with
  | .first => '(' :: spaced (symbol :: operands) ++ [')']
  | .last => '(' :: spaced (operands ++ [symbol]) ++ [')']

/-- The form of an operand with a space on the side of the symbol. -/
def aside (p : Placement) (text : List Char) : List Char :=
  match p with
  | .first => ' ' :: text
  | .last => text ++ [' ']

mutual
/-- The bracketed form, and `rest` after it. -/
def writeOnto (p : Placement) : Formula → List Char → List Char
  | .const value, rest => Number.constant value ++ rest
  | .var name, rest => name.toList ++ rest
  | .apply symbol xs, rest =>
    match p with
    | .first => '(' :: (symbol.toList ++ writeAllOnto p xs (')' :: rest))
    | .last => '(' :: writeAllOnto p xs (symbol.toList ++ ')' :: rest)
def writeAllOnto (p : Placement) : List Formula → List Char → List Char
  | [], rest => rest
  | x :: xs, rest =>
    match p with
    | .first => ' ' :: writeOnto p x (writeAllOnto p xs rest)
    | .last => writeOnto p x (' ' :: writeAllOnto p xs rest)
end

/-- The bracketed form. -/
def write (p : Placement) (t : Formula) : List Char := t.writeOnto p []

mutual
theorem writeOnto_eq (p : Placement) : (t : Formula) → (rest : List Char) →
    t.writeOnto p rest = t.write p ++ rest
  | .const value, rest => by simp [write, writeOnto]
  | .var name, rest => by simp [write, writeOnto]
  | .apply symbol xs, rest => by
      cases p with
      | first =>
          simp only [write, writeOnto]
          rw [writeAllOnto_eq .first xs (')' :: rest), writeAllOnto_eq .first xs [')']]
          simp
      | last =>
          simp only [write, writeOnto]
          rw [writeAllOnto_eq .last xs (symbol.toList ++ ')' :: rest),
            writeAllOnto_eq .last xs (symbol.toList ++ [')'])]
          simp
theorem writeAllOnto_eq (p : Placement) : (xs : List Formula) → (rest : List Char) →
    writeAllOnto p xs rest = (xs.map (write p)).flatMap (aside p) ++ rest
  | [], rest => by simp [writeAllOnto]
  | x :: xs, rest => by
      cases p <;> simp [writeAllOnto, aside, writeOnto_eq _ x, writeAllOnto_eq _ xs rest]
end

@[simp] theorem write_const (p : Placement) (value : Float) :
    (Formula.const value).write p = Number.constant value := by simp [write, writeOnto]

@[simp] theorem write_var (p : Placement) (name : String) :
    (Formula.var name).write p = name.toList := by simp [write, writeOnto]

@[simp] theorem write_apply (p : Placement) (symbol : String) (xs : List Formula) :
    (Formula.apply symbol xs).write p = bracketed p symbol.toList (xs.map (write p)) := by
  cases p with
  | first =>
      have h : aside .first = (' ' :: ·) := rfl
      simp only [write, writeOnto, bracketed, spaced_cons]
      rw [writeAllOnto_eq, h]
      simp
  | last =>
      have h : aside .last = (· ++ [' ']) := rfl
      simp only [write, writeOnto, bracketed, spaced_append_singleton]
      rw [writeAllOnto_eq, h]
      simp

/-! ## The flat form -/

mutual
/-- The flat form, and `rest` after it. -/
def writeFlatOnto : Formula → List Char → List Char
  | .const value, rest => Number.constant value ++ rest
  | .var name, rest => name.toList ++ rest
  | .apply symbol xs, rest => writeFlatAllOnto xs (symbol.toList ++ rest)
def writeFlatAllOnto : List Formula → List Char → List Char
  | [], rest => rest
  | x :: xs, rest => writeFlatOnto x (' ' :: writeFlatAllOnto xs rest)
end

/-- The flat form. -/
def writeFlat (t : Formula) : List Char := t.writeFlatOnto []

mutual
theorem writeFlatOnto_eq : (t : Formula) → (rest : List Char) →
    t.writeFlatOnto rest = t.writeFlat ++ rest
  | .const value, rest => by simp [writeFlat, writeFlatOnto]
  | .var name, rest => by simp [writeFlat, writeFlatOnto]
  | .apply symbol xs, rest => by
      simp only [writeFlat, writeFlatOnto]
      rw [writeFlatAllOnto_eq xs (symbol.toList ++ rest),
        writeFlatAllOnto_eq xs (symbol.toList ++ [])]
      simp
theorem writeFlatAllOnto_eq : (xs : List Formula) → (rest : List Char) →
    writeFlatAllOnto xs rest = (xs.map writeFlat).flatMap (· ++ [' ']) ++ rest
  | [], rest => by simp [writeFlatAllOnto]
  | x :: xs, rest => by
      simp [writeFlatAllOnto, writeFlatOnto_eq x, writeFlatAllOnto_eq xs rest]
end

@[simp] theorem writeFlat_const (value : Float) :
    (Formula.const value).writeFlat = Number.constant value := by simp [writeFlat, writeFlatOnto]

@[simp] theorem writeFlat_var (name : String) :
    (Formula.var name).writeFlat = name.toList := by simp [writeFlat, writeFlatOnto]

@[simp] theorem writeFlat_apply (symbol : String) (xs : List Formula) :
    (Formula.apply symbol xs).writeFlat = spaced (xs.map writeFlat ++ [symbol.toList]) := by
  simp only [writeFlat, writeFlatOnto, spaced_append_singleton]
  rw [writeFlatAllOnto_eq]
  simp

/-! ## The constructor form -/

/-- The name of a node's kind. -/
def kindName : Formula → String
  | .const _ => "ConstantNode"
  | .var _ => "VariableNode"
  | .apply _ _ => "OperationNode"

/-- The name of a node's kind and an opening bracket. -/
def kindCall (t : Formula) : List Char := t.kindName.toList ++ ['(']

mutual
/-- The constructor form, and `rest` after it. -/
def writeConstructorsOnto : Formula → List Char → List Char
  | .const value, rest => kindCall (.const value) ++ Number.constant value ++ ')' :: rest
  | .var name, rest => kindCall (.var name) ++ Text.quoted name.toList ++ ')' :: rest
  | .apply symbol xs, rest =>
      kindCall (.apply symbol xs) ++ Text.quoted symbol.toList ++
        writeConstructorsAllOnto xs (')' :: rest)
def writeConstructorsAllOnto : List Formula → List Char → List Char
  | [], rest => rest
  | x :: xs, rest => ',' :: ' ' :: writeConstructorsOnto x (writeConstructorsAllOnto xs rest)
end

/-- The constructor form: the kind of a node, and its parts in brackets after it. -/
def writeConstructors (t : Formula) : List Char := t.writeConstructorsOnto []

mutual
theorem writeConstructorsOnto_eq : (t : Formula) → (rest : List Char) →
    t.writeConstructorsOnto rest = t.writeConstructors ++ rest
  | .const value, rest => by simp [writeConstructors, writeConstructorsOnto]
  | .var name, rest => by simp [writeConstructors, writeConstructorsOnto]
  | .apply symbol xs, rest => by
      simp only [writeConstructors, writeConstructorsOnto]
      rw [writeConstructorsAllOnto_eq xs (')' :: rest), writeConstructorsAllOnto_eq xs [')']]
      simp
theorem writeConstructorsAllOnto_eq : (xs : List Formula) → (rest : List Char) →
    writeConstructorsAllOnto xs rest =
      (xs.map writeConstructors).flatMap (',' :: ' ' :: ·) ++ rest
  | [], rest => by simp [writeConstructorsAllOnto]
  | x :: xs, rest => by
      simp [writeConstructorsAllOnto, writeConstructorsOnto_eq x,
        writeConstructorsAllOnto_eq xs rest]
end

theorem writeConstructors_apply (symbol : String) (xs : List Formula) :
    (Formula.apply symbol xs).writeConstructors =
      kindCall (.apply symbol xs) ++ Text.quoted symbol.toList ++
        (xs.map writeConstructors).flatMap (',' :: ' ' :: ·) ++ [')'] := by
  simp only [writeConstructors, writeConstructorsOnto]
  rw [writeConstructorsAllOnto_eq]
  simp

def toText (p : Placement) (t : Formula) : String := String.ofList (t.write p)
def toFlatText (t : Formula) : String := String.ofList t.writeFlat
def toConstructorText (t : Formula) : String := String.ofList t.writeConstructors

example : (Formula.apply "+" [.var "x", .const 2]).toText .last = "(x 2 +)" := by decide +kernel
example : (Formula.apply "+" [.var "x", .const 2]).toConstructorText =
    "OperationNode('+', VariableNode('x'), ConstantNode(2))" := by decide +kernel

end Formula
end Formulary
