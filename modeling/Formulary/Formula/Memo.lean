import Formulary.Formula.Derivative
import Formulary.Formula.Sameness
import Formulary.Formula.Writing
import Formulary.Value.Evaluation

/-!
# Formulas that remember

A memo is a formula each of whose nodes has two slots, for its size and for its
digest. A slot is filled when the answer is first asked for, together with those
slots below that were needed to find it. Apart from emptying a slot, a memo
cannot be changed: assigning or erasing anything else is refused.
-/

namespace Formulary

/-- What a node remembers. -/
structure Slots where
  size? : Option Nat := none
  digest? : Option Digest := none

/-- The slots that may be emptied. -/
inductive Slot where
  | size
  | digest
deriving DecidableEq, Repr

namespace Slot

def name : Slot → String
  | .size => "_size_cache"
  | .digest => "_hash_cache"

def ofName? (name : String) : Option Slot :=
  [Slot.size, .digest].find? fun s => s.name == name

end Slot

def Slots.clear (s : Slots) : Slot → Slots
  | .size => { s with size? := none }
  | .digest => { s with digest? := none }

/-- A formula whose nodes have slots. -/
inductive Memo where
  | const (slots : Slots) (value : Float)
  | var (slots : Slots) (name : String)
  | apply (slots : Slots) (symbol : String) (operands : List Memo)

namespace Memo

mutual
/-- A formula that remembers nothing yet. -/
def fresh : Formula → Memo
  | .const value => .const {} value
  | .var name => .var {} name
  | .apply symbol xs => .apply {} symbol (freshAll xs)
def freshAll : List Formula → List Memo
  | [] => []
  | x :: xs => fresh x :: freshAll xs
end

mutual
/-- The formula without what is remembered. -/
def formula : Memo → Formula
  | .const _ value => .const value
  | .var _ name => .var name
  | .apply _ symbol xs => .apply symbol (formulaAll xs)
def formulaAll : List Memo → List Formula
  | [] => []
  | x :: xs => formula x :: formulaAll xs
end

def slots : Memo → Slots
  | .const s _ => s
  | .var s _ => s
  | .apply s _ _ => s

def withSlots (s : Slots) : Memo → Memo
  | .const _ value => .const s value
  | .var _ name => .var s name
  | .apply _ symbol xs => .apply s symbol xs

mutual
/-- The size, remembered from now on. -/
def size : Memo → Nat × Memo
  | .const s value => (s.size?.getD 1, .const { s with size? := some (s.size?.getD 1) } value)
  | .var s name => (s.size?.getD 1, .var { s with size? := some (s.size?.getD 1) } name)
  | .apply s symbol xs =>
    match s.size? with
    | some n => (n, .apply s symbol xs)
    | none =>
      let (n, xs) := sizeAll xs
      (1 + n, .apply { s with size? := some (1 + n) } symbol xs)
def sizeAll : List Memo → Nat × List Memo
  | [] => (0, [])
  | x :: xs =>
    let (n, x) := size x
    let (m, xs) := sizeAll xs
    (n + m, x :: xs)
end

/-- A remembered digest, or the given one. -/
def remembered (s : Slots) (d : Digest) : Digest := s.digest?.getD d

mutual
/-- The digest, remembered from now on. -/
def digest : Memo → Digest × Memo
  | .const s value =>
    let d := remembered s ((Formula.const value).digest 0)
    (d, .const { s with digest? := some d } value)
  | .var s name =>
    let d := remembered s (.var name)
    (d, .var { s with digest? := some d } name)
  | .apply s symbol xs =>
    match s.digest? with
    | some d => (d, .apply s symbol xs)
    | none =>
      let (ds, xs) := digestAll xs
      (.apply symbol ds, .apply { s with digest? := some (.apply symbol ds) } symbol xs)
def digestAll : List Memo → List Digest × List Memo
  | [] => ([], [])
  | x :: xs =>
    let (d, x) := digest x
    let (ds, xs) := digestAll xs
    (d :: ds, x :: xs)
end

/-- What can be asked of a node. -/
inductive Call where
  | size
  | digest
  | same (other : Formula)
  | write (placement : Placement)
  | writeFlat
  | writeConstructors
  | derivative (name : String)
  | evaluate (arguments : List Argument)
  /-- give a field no value -/
  | assign (field : String)
  | erase (field : String)

inductive Answer where
  | size (n : Nat)
  | digest (d : Digest)
  | truth (b : Bool)
  | text (cs : List Char)
  | derivative (result : Except DerivativeFault Formula)
  | value (result : Except EvalFault (Grid Float))
  | done
  /-- refused, with the name of the node's kind -/
  | immutable (kind : String)

def Answer.refusal (kind : String) : String := kind ++ " nodes are immutable"

/-- One call on a node: the answer, and the node afterwards. -/
def call (m : Memo) : Call → Answer × Memo
  | .size => let (n, m) := m.size; (.size n, m)
  | .digest => let (d, m) := m.digest; (.digest d, m)
  | .same other => (.truth (m.formula.same false other), m)
  | .write p => (.text (m.formula.write p), m)
  | .writeFlat => (.text m.formula.writeFlat, m)
  | .writeConstructors => (.text m.formula.writeConstructors, m)
  | .derivative name => (.derivative (m.formula.derivative name), m)
  | .evaluate arguments => (.value (m.formula.evaluateAt arguments), m)
  | .assign field =>
    match Slot.ofName? field with
    | some slot => (.done, m.withSlots (m.slots.clear slot))
    | none => (.immutable m.formula.kindName, m)
  | .erase _ => (.immutable m.formula.kindName, m)

/-- A call on the node that a path of operand positions leads to. -/
def callAt : List Nat → Call → Memo → Option (Answer × Memo)
  | [], c, m => some (m.call c)
  | i :: path, c, .apply s symbol xs =>
    match xs[i]? with
    | none => none
    | some x => (callAt path c x).map fun (a, x) => (a, .apply s symbol (xs.set i x))
  | _ :: _, _, _ => none

end Memo
end Formulary
