import Formulary.Formula.Basic

/-!
# Walking a formula

Two orders in which the nodes of a formula are visited, each with the list of
nodes still to visit at hand: a stack gives depth first, a queue breadth first.
Beside each stands the order it is meant to be, said by recursion: the pre-order,
and the levels from the root down.
-/

namespace Formulary

/-- An order in which all nodes are visited. -/
inductive VisitOrder where
  | depthFirst
  | breadthFirst
deriving DecidableEq, Repr

namespace VisitOrder

def name : VisitOrder → String
  | .depthFirst => "depth_first"
  | .breadthFirst => "breadth_first"

def ofName? (name : String) : Option VisitOrder :=
  [VisitOrder.depthFirst, .breadthFirst].find? fun o => o.name == name

end VisitOrder

namespace Formula

/-- The nodes reached from a stack of pending ones: the top is visited and its operands
take its place. -/
def visitStack : List Formula → List Formula
  | [] => []
  | t :: pending => t :: visitStack (t.operands ++ pending)
termination_by pending => sizeAll pending
decreasing_by
  simp only [sizeAll_append, sizeAll, size_eq t]
  omega

/-- The nodes reached from a queue of pending ones: the front is visited and its operands
go to the back. -/
def visitQueue : List Formula → List Formula
  | [] => []
  | t :: pending => t :: visitQueue (pending ++ t.operands)
termination_by pending => sizeAll pending
decreasing_by
  simp only [sizeAll_append, sizeAll, size_eq t]
  omega

/-- All nodes in the given order. -/
def nodes (order : VisitOrder) (t : Formula) : List Formula :=
  match order with
  | .depthFirst => visitStack [t]
  | .breadthFirst => visitQueue [t]

mutual
/-- A node before its operands, the operands from left to right. -/
def preorder : Formula → List Formula
  | .const value => [.const value]
  | .var name => [.var name]
  | .apply symbol xs => .apply symbol xs :: preorderAll xs
def preorderAll : List Formula → List Formula
  | [] => []
  | x :: xs => preorder x ++ preorderAll xs
end

/-- The nodes at a distance from the roots of a list of formulas. -/
def level : Nat → List Formula → List Formula
  | 0, ts => ts
  | n + 1, ts => level n (ts.flatMap operands)

/-- The levels of a formula one after the other. -/
def levels (t : Formula) : List Formula := (List.range t.depth).flatMap fun n => level n [t]

def constant? : Formula → Option Float
  | .const value => some value
  | _ => none

def name? : Formula → Option String
  | .var name => some name
  | _ => none

def symbol? : Formula → Option String
  | .apply symbol _ => some symbol
  | _ => none

/-- What a node can be. -/
inductive Kind where
  | constant
  | name
  | operation
deriving DecidableEq, Repr

def kind : Formula → Kind
  | .const _ => .constant
  | .var _ => .name
  | .apply _ _ => .operation

/-- The nodes of a kind, in pre-order. -/
def ofKind (k : Kind) (t : Formula) : List Formula :=
  (t.nodes .depthFirst).filter fun n => n.kind == k

/-- The constants, in pre-order. -/
def constants (t : Formula) : List Float := (t.nodes .depthFirst).filterMap constant?

/-- The names, in pre-order. -/
def names (t : Formula) : List String := (t.nodes .depthFirst).filterMap name?

/-- The operation symbols, in pre-order. -/
def symbols (t : Formula) : List String := (t.nodes .depthFirst).filterMap symbol?

/-- The nodes with an operation symbol, in pre-order. -/
def withSymbol (symbol : String) (t : Formula) : List Formula :=
  (t.nodes .depthFirst).filter fun n => n.symbol? == some symbol

/-- Each name once, in the order of first occurrence, with the number of its occurrences. -/
def nameCounts (t : Formula) : List (String × Nat) :=
  let names := t.names
  names.eraseDups.map fun n => (n, names.count n)

theorem preorderAll_append (xs ys : List Formula) :
    preorderAll (xs ++ ys) = preorderAll xs ++ preorderAll ys := by
  induction xs with
  | nil => rfl
  | cons x xs ih => simp [preorderAll, ih]

theorem preorder_eq_cons (t : Formula) : t.preorder = t :: preorderAll t.operands := by
  cases t <;> rfl

/-- Walking with a stack gives the pre-order. -/
theorem visitStack_eq (pending : List Formula) : visitStack pending = preorderAll pending := by
  fun_induction visitStack pending with
  | case1 => rfl
  | case2 t pending ih =>
      rw [ih, preorderAll_append, preorderAll, preorder_eq_cons, List.cons_append]

end Formula
end Formulary
