import Formulary.Formula.Validity

/-!
# What a walk collects

A walk with a stack visits a node before its operands, so whatever is collected
on the way comes together by recursion: what the node contributes by itself, and
then what its operands contribute from left to right.
-/

namespace Formulary.Formula

theorem preorderAll_eq_flatMap (xs : List Formula) : preorderAll xs = xs.flatMap preorder := by
  induction xs with
  | nil => rfl
  | cons x xs ih => rw [preorderAll, ih, List.flatMap_cons]

theorem nodes_depthFirst (t : Formula) : t.nodes .depthFirst = t.preorder := by
  rw [nodes, visitStack_eq, preorderAll, preorderAll, List.append_nil]

theorem preorder_eq (t : Formula) : t.preorder = t :: t.operands.flatMap preorder := by
  rw [preorder_eq_cons, preorderAll_eq_flatMap]

/-- The nodes of a formula are itself and the nodes of its operands. -/
theorem forall_nodes_iff {P : Formula → Prop} {t : Formula} :
    (∀ node ∈ t.nodes .depthFirst, P node) ↔
      P t ∧ ∀ x ∈ t.operands, ∀ node ∈ x.nodes .depthFirst, P node := by
  simp only [nodes_depthFirst]
  rw [preorder_eq, List.forall_mem_cons, List.forall_mem_flatMap]

theorem self_mem_nodes (t : Formula) : t ∈ t.nodes .depthFirst :=
  (forall_nodes_iff (P := (· ∈ t.nodes .depthFirst))).mp (fun _ h => h) |>.1

theorem mem_nodes_of_operand {t x node : Formula} (hx : x ∈ t.operands)
    (h : node ∈ x.nodes .depthFirst) : node ∈ t.nodes .depthFirst :=
  (forall_nodes_iff (P := (· ∈ t.nodes .depthFirst))).mp (fun _ h => h) |>.2 x hx node h

mutual
/-- What holds of leaves, and of an operation if it holds of its operands, holds of all formulas. -/
theorem operandsInduction {motive : Formula → Prop} (const : ∀ value, motive (.const value))
    (var : ∀ name, motive (.var name))
    (apply : ∀ symbol xs, (∀ x ∈ xs, motive x) → motive (.apply symbol xs)) :
    (t : Formula) → motive t
  | .const value => const value
  | .var name => var name
  | .apply symbol xs => apply symbol xs (operandsInductionAll const var apply xs)
theorem operandsInductionAll {motive : Formula → Prop} (const : ∀ value, motive (.const value))
    (var : ∀ name, motive (.var name))
    (apply : ∀ symbol xs, (∀ x ∈ xs, motive x) → motive (.apply symbol xs)) :
    (xs : List Formula) → ∀ x ∈ xs, motive x
  | [] => List.forall_mem_nil _
  | x :: xs => List.forall_mem_cons.mpr
      ⟨operandsInduction const var apply x, operandsInductionAll const var apply xs⟩
end

/-- **Collecting.** What is collected of a formula: that of its root, then that of its operands. -/
theorem filterMap_nodes {α : Type} (f : Formula → Option α) (t : Formula) :
    (t.nodes .depthFirst).filterMap f =
      (f t).toList ++ t.operands.flatMap fun x => (x.nodes .depthFirst).filterMap f := by
  have hoperands : (t.operands.flatMap preorder).filterMap f =
      t.operands.flatMap fun x => (x.nodes .depthFirst).filterMap f := by
    rw [List.filterMap_flatMap]
    exact congrArg (List.flatMap · t.operands) (funext fun x => by rw [nodes_depthFirst])
  rw [nodes_depthFirst, preorder_eq, ← hoperands]
  cases h : f t with
  | none => rw [List.filterMap_cons_none h, Option.toList_none, List.nil_append]
  | some a => rw [List.filterMap_cons_some h, Option.toList_some, List.singleton_append]

theorem constants_eq (t : Formula) :
    t.constants = t.constant?.toList ++ t.operands.flatMap constants :=
  filterMap_nodes constant? t

theorem mem_symbols_apply {name symbol : String} {xs : List Formula} :
    name ∈ (apply symbol xs).symbols ↔ symbol = name ∨ ∃ x ∈ xs, name ∈ x.symbols := by
  have hsymbols : (apply symbol xs).symbols = symbol :: xs.flatMap symbols :=
    filterMap_nodes symbol? _
  rw [hsymbols, List.mem_cons, List.mem_flatMap, eq_comm]

theorem problems_eq (r : Registry) (t : Formula) :
    t.problems r = (problem? r t).toList ++ t.operands.flatMap (problems r) :=
  filterMap_nodes (problem? r) t

/-- An operation node has no problem when the operation is registered and takes its operands. -/
theorem problem?_apply_eq_none_iff {symbol : String} {xs : List Formula} :
    problem? Registry.standard (apply symbol xs) = none ↔
      ∃ o, Operation.ofSymbol? symbol = some o ∧ o.arity.admits xs.length = true := by
  rw [problem?, Registry.standard_arity?]
  cases ho : Operation.ofSymbol? symbol with
  | none => simp
  | some o => cases hadmits : o.arity.admits xs.length <;> simp [hadmits]

/-- A formula has no problem when neither its root nor any of its operands has one. -/
theorem problems_eq_nil_iff (r : Registry) (t : Formula) :
    t.problems r = [] ↔ problem? r t = none ∧ ∀ x ∈ t.operands, x.problems r = [] := by
  rw [problems_eq, List.append_eq_nil_iff, List.flatMap_eq_nil_iff, Option.toList_eq_nil_iff]

end Formulary.Formula
