import Formulary.Notebook

/-!
# Comparisons

A formula by itself and an entry that holds one can stand on either side of a
comparison. A side has an answer for its own kind only: a constant for constants,
an argument for arguments, an operation for operations, an entry for entries. The
left side is asked first and then the right one, and if neither has an answer the
two are different.
-/

namespace Formulary

/-- One side of a comparison. -/
inductive Comparand where
  /-- a formula by itself, and where it was made -/
  | formula (t : Formula) (origin : Nat)
  | entry (e : Entry)

namespace Comparand

def isEntry : Comparand → Bool
  | .formula _ _ => false
  | .entry _ => true

/-- The formula that is compared. -/
def content : Comparand → Formula
  | .formula t _ => t
  | .entry e => e.formula

def origin : Comparand → Nat
  | .formula _ i => i
  | .entry e => e.origin

/-- What one side says of the other; it has no answer for another kind. -/
def answer? : Comparand → Comparand → Option Bool
  | .formula t i, .formula u j =>
    if t.kindName = u.kindName then some (t.same (i == j) u) else none
  | .entry a, .entry b => some (a.same b)
  | _, _ => none

/-- Whether two are equal: the first answer there is. -/
def equal (a b : Comparand) : Bool := ((a.answer? b).or (b.answer? a)).getD false

/-- Whether two are different: the first answer there is, turned around. -/
def differs (a b : Comparand) : Bool :=
  (((a.answer? b).map not).or ((b.answer? a).map not)).getD true

/-- What stands for it in a hash; an entry hashes as its formula. -/
def digest : Comparand → Digest
  | .formula t i => t.digest i
  | .entry e => e.digest

/-- The flat text that it shows. -/
def text : Comparand → String
  | .formula t _ => t.toFlatText
  | .entry e => e.display.1

end Comparand
end Formulary
