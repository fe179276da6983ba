import Formulary.Formula.Derivative
import Formulary.Formula.Sameness
import Formulary.Formula.Writing
import Formulary.Reading.Form
import Formulary.Value.Evaluation

/-!
# Notebooks

A notebook keeps entries, of which one is current and some are saved under
names. An entry holds a formula that can be replaced, and the flat text that it
was first shown with. Saving and loading share the entry itself, so a
replacement is seen under every name.

The flat text of an entry is made once. When the formula is replaced later, the
text stays.
-/

namespace Formulary

/-- An entry of a notebook. -/
structure Entry where
  formula : Formula
  /-- where the formula was made; it tells whether two constants that are no numbers are
  one and the same -/
  origin : Nat
  /-- the flat text, once it has been shown -/
  text? : Option String := none

namespace Entry

/-- The flat text, kept from now on. -/
def display (e : Entry) : String × Entry :=
  match e.text? with
  | some text => (text, e)
  | none => (e.formula.toFlatText, { e with text? := some e.formula.toFlatText })

def toConstructorText (e : Entry) : String := "Expression(" ++ e.formula.toConstructorText ++ ")"

/-- Whether two entries hold the same formula. -/
def same (a b : Entry) : Bool := a.formula.same (a.origin == b.origin) b.formula

def digest (e : Entry) : Digest := e.formula.digest e.origin

end Entry

/-- The entries by number, the number of the current one, and the saved ones. -/
structure Notebook where
  entries : List Entry := []
  current? : Option Nat := none
  saved : List (String × Nat) := []

inductive NotebookRequest where
  | read (form : Form) (text : String)
  /-- take a formula that was built by hand -/
  | wrap (t : Formula)
  | load (name : String)
  | save (name : String)
  | derivative (name : String)
  | evaluate (arguments : List Argument)
  /-- replace the formula of the current entry by that of a saved one -/
  | adopt (name : String)
  | same (name : String)
  | sameDigest (name : String)
  /-- compare the current entry with the formula of a saved one -/
  | sameAsFormula (name : String)
  | display
  | write (placement : Placement)
  | writeConstructors
  | size

inductive NotebookReply where
  | text (s : String)
  | names (ns : List String)
  | value (formula : Formula) (g : Grid Float)
  | truth (b : Bool)
  | number (n : Nat)

/-- Why a request is refused; the notebook then stays as it was. -/
inductive NotebookFault where
  | noCurrent
  | unknownName (name : String)
  | text (e : ParseError)
  | nothingFound (text : String)
  | derivative (fault : DerivativeFault)
  | evaluation (fault : EvalFault)

/-- The wording when a flat text holds no formula. -/
def nothingFoundMessage (text : String) : String := "No expression found in " ++ Text.quote text

namespace Notebook

def current (b : Notebook) : Except NotebookFault (Nat × Entry) :=
  match b.current? with
  | none => .error .noCurrent
  | some i =>
    match b.entries[i]? with
    | none => .error .noCurrent
    | some e => .ok (i, e)

def lookup (b : Notebook) (name : String) : Except NotebookFault (Nat × Entry) :=
  match b.saved.lookup name with
  | none => .error (.unknownName name)
  | some i =>
    match b.entries[i]? with
    | none => .error (.unknownName name)
    | some e => .ok (i, e)

/-- A new entry, which becomes the current one. -/
def push (b : Notebook) (e : Entry) : Notebook :=
  { b with entries := b.entries ++ [e], current? := some b.entries.length }

/-- The names under which entries are saved, in order. -/
def savedNames (b : Notebook) : List String :=
  (b.saved.map Prod.fst).mergeSort fun a b => decide (a ≤ b)

/-- A new entry of its own origin, shown with its symbols first. -/
def enter (b : Notebook) (t : Formula) : NotebookReply × Notebook :=
  (.text (t.toText .first), b.push { formula := t, origin := b.entries.length })

/-- One request: the reply and the notebook after it, or the fault. -/
def request (b : Notebook) : NotebookRequest → Except NotebookFault (NotebookReply × Notebook)
  | .read form text =>
    match (form.read text).result with
    | .error e => .error (.text e)
    | .ok none => .error (.nothingFound text)
    | .ok (some t) => .ok (b.enter t)
  | .wrap t => .ok (b.enter t)
  | .load name => do
    let (i, e) ← b.lookup name
    return (.text (e.formula.toText .first), { b with current? := some i })
  | .save name => do
    let (i, _) ← b.current
    let b := { b with saved := (name, i) :: b.saved.filter fun s => s.1 != name }
    return (.names b.savedNames, b)
  | .derivative name => do
    let (_, e) ← b.current
    let t ← (e.formula.derivative name).mapError .derivative
    return (.text (t.toText .first), b.push { formula := t, origin := e.origin })
  | .evaluate arguments => do
    let (_, e) ← b.current
    let g ← (e.formula.evaluateAt arguments).mapError .evaluation
    return (.value e.formula g, b)
  | .adopt name => do
    let (i, e) ← b.current
    let (_, other) ← b.lookup name
    let e := { e with formula := other.formula, origin := other.origin }
    return (.text (e.formula.toText .first), { b with entries := b.entries.set i e })
  | .same name => do
    let (_, e) ← b.current
    let (_, other) ← b.lookup name
    return (.truth (e.same other), b)
  | .sameDigest name => do
    let (_, e) ← b.current
    let (_, other) ← b.lookup name
    return (.truth (e.digest == other.digest), b)
  | .sameAsFormula name => do
    let (_, _) ← b.current
    let (_, _) ← b.lookup name
    return (.truth false, b)
  | .display => do
    let (i, e) ← b.current
    let (text, e) := e.display
    return (.text text, { b with entries := b.entries.set i e })
  | .write p => do
    let (_, e) ← b.current
    return (.text (e.formula.toText p), b)
  | .writeConstructors => do
    let (_, e) ← b.current
    return (.text e.toConstructorText, b)
  | .size => do
    let (_, e) ← b.current
    return (.number e.formula.size, b)

end Notebook
end Formulary
