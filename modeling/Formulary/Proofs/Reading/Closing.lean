import Formulary.Reading.Grammar
import Formulary.Reading.Scan

/-!
# Closing a group

When a group is closed its items decide what becomes of it. If exactly one of
them is an operation, the items are formulas, the operation, and formulas again,
and the operation is where the notation has it when one of the two runs is empty.
The pass that only keeps marks finds the same defects.
-/

namespace Formulary

/-- Items of which one is an operation: it stands between two runs of formulas. -/
def Item.around (symbol : String) (pre post : List Formula) : List Item :=
  pre.map .formula ++ .operator symbol :: post.map .formula

/-- The items of a well-formed group. -/
def Placement.items (p : Placement) (symbol : String) (operands : List Formula) : List Item :=
  match p with
  | .first => Item.around symbol [] operands
  | .last => Item.around symbol operands []

namespace Item

/-- What a pass keeps of the item. -/
def mark : Item → Mark
  | .formula _ => .operand
  | .operator symbol => .operator symbol

theorem symbol?_mark (i : Item) : i.mark.symbol? = i.operator? := by
  cases i <;> rfl

theorem filterMap_formula?_formulas (ts : List Formula) :
    (ts.map formula).filterMap formula? = ts := by
  rw [List.filterMap_map]
  exact List.filterMap_some

theorem filterMap_operator?_formulas (ts : List Formula) :
    (ts.map formula).filterMap operator? = [] := by
  induction ts with
  | nil => rfl
  | cons t ts ih => exact ih

theorem formulas_of_no_operator {items : List Item}
    (h : items.filterMap operator? = []) : ∃ ts : List Formula, items = ts.map formula := by
  induction items with
  | nil => exact ⟨[], rfl⟩
  | cons i items ih =>
      cases i with
      | formula t =>
          obtain ⟨ts, rfl⟩ := ih h
          exact ⟨t :: ts, rfl⟩
      | operator symbol => cases h

/-- A single operation stands between formulas. -/
theorem split_of_one_operator {items : List Item} {symbol : String}
    (h : items.filterMap operator? = [symbol]) :
    ∃ pre post : List Formula, items = around symbol pre post := by
  induction items with
  | nil => cases h
  | cons i items ih =>
      cases i with
      | formula t =>
          obtain ⟨pre, post, rfl⟩ := ih h
          exact ⟨t :: pre, post, rfl⟩
      | operator s =>
          have hs : s :: items.filterMap operator? = [symbol] := h
          obtain ⟨rfl, hnone⟩ := List.cons.inj hs
          obtain ⟨post, rfl⟩ := formulas_of_no_operator hnone
          exact ⟨[], post, rfl⟩

end Item

namespace Dialect

variable {d : Dialect} {symbol : String} {pre post : List Formula}

theorem filterMap_formula?_around (symbol : String) (pre post : List Formula) :
    (Item.around symbol pre post).filterMap Item.formula? = pre ++ post := by
  rw [Item.around, List.filterMap_append, List.filterMap_cons_none rfl,
    Item.filterMap_formula?_formulas, Item.filterMap_formula?_formulas]

theorem filterMap_operator?_around (symbol : String) (pre post : List Formula) :
    (Item.around symbol pre post).filterMap Item.operator? = [symbol] := by
  have hsymbol : Item.operator? (.operator symbol) = some symbol := rfl
  rw [Item.around, List.filterMap_append, List.filterMap_cons_some hsymbol,
    Item.filterMap_operator?_formulas, Item.filterMap_operator?_formulas, List.nil_append]

theorem findIdx_around (symbol : String) (pre post : List Formula) :
    (Item.around symbol pre post).findIdx (fun i => i.operator?.isSome) = pre.length := by
  induction pre with
  | nil => rfl
  | cons t pre ih =>
      rw [Item.around] at ih ⊢
      rw [List.map_cons, List.cons_append, List.findIdx_cons, ih]
      rfl

/-- What becomes of a group with a single operation. -/
theorem close_around (d : Dialect) (symbol : String) (pre post : List Formula) :
    d.close (Item.around symbol pre post) =
      if pre.length ≠ d.operatorIndex (pre.length + post.length) then
        .error (.operationPosition symbol)
      else if ((d.registry.arity? symbol).map
          (·.admits (pre.length + post.length))).getD false then
        .ok (.apply symbol (pre ++ post))
      else .error (.argumentCount (pre.length + post.length) symbol) := by
  simp only [close, filterMap_formula?_around, filterMap_operator?_around, findIdx_around,
    List.length_append]

theorem operatorIndex_eq_iff :
    pre.length = d.operatorIndex (pre.length + post.length) ↔
      match d.placement with
      | .first => pre = []
      | .last => post = [] := by
  cases h : d.placement with
  | first => simp [operatorIndex, h]
  | last =>
      simp only [operatorIndex, h]
      rw [← List.length_eq_zero_iff]
      omega

/-- **A group that closes.** Its items are an operation, where the notation has it, and as many
formulas as the operation takes. -/
theorem close_eq_ok_iff {items : List Item} {t : Formula} :
    d.close items = .ok t ↔
      ∃ symbol arity operands, items = d.placement.items symbol operands ∧
        d.registry.arity? symbol = some arity ∧ arity.admits operands.length = true ∧
        t = .apply symbol operands := by
  constructor
  · intro h
    cases hops : items.filterMap Item.operator? with
    | nil => simp [close, hops] at h
    | cons symbol more =>
        cases more with
        | cons s more => simp [close, hops] at h
        | nil =>
            obtain ⟨pre, post, rfl⟩ := Item.split_of_one_operator hops
            rw [close_around] at h
            split at h
            · cases h
            · next hindex =>
                split at h
                · next hadmits =>
                    have hedge := operatorIndex_eq_iff.mp (Decidable.not_not.mp hindex)
                    obtain ⟨arity, harity⟩ : ∃ arity, d.registry.arity? symbol = some arity := by
                      cases ha : d.registry.arity? symbol with
                      | none => simp [ha] at hadmits
                      | some arity => exact ⟨arity, rfl⟩
                    refine ⟨symbol, arity, pre ++ post, ?_, harity, ?_, (Except.ok.inj h).symm⟩
                    · cases hp : d.placement <;> simp only [hp] at hedge <;> subst hedge <;>
                        simp [Placement.items]
                    · simpa [harity] using hadmits
                · cases h
  · rintro ⟨symbol, arity, operands, rfl, harity, hadmits, rfl⟩
    cases hp : d.placement with
    | first =>
        rw [Placement.items, close_around]
        simp [operatorIndex, hp, harity, hadmits]
    | last =>
        rw [Placement.items, close_around]
        simp [operatorIndex, hp, harity, hadmits]

/-! ## The marks of a group -/

theorem filterMap_symbol?_marks (items : List Item) :
    (items.map Item.mark).filterMap Mark.symbol? = items.filterMap Item.operator? := by
  rw [List.filterMap_map]
  exact congrArg (List.filterMap · items) (funext Item.symbol?_mark)

theorem countP_marks (items : List Item) :
    ((items.map Item.mark).reverse.countP fun m => m.symbol?.isSome) =
      (items.filterMap Item.operator?).length := by
  rw [List.countP_reverse, ← filterMap_symbol?_marks, List.length_filterMap_eq_countP]

theorem findSome?_marks (items : List Item) :
    (items.map Item.mark).reverse.findSome? Mark.symbol? =
      (items.filterMap Item.operator?).getLast? := by
  rw [← filterMap_symbol?_marks, ← List.head?_reverse, ← List.filterMap_reverse,
    List.head?_filterMap]

theorem marks_around (symbol : String) (pre post : List Formula) :
    ((Item.around symbol pre post).map Item.mark).reverse =
      List.replicate post.length .operand ++
        .operator symbol :: List.replicate pre.length .operand := by
  have h : ∀ ts : List Formula,
      (ts.map Item.formula).map Item.mark = List.replicate ts.length .operand := by
    intro ts
    rw [List.map_map]
    exact List.map_const'
  simp [Item.around, h, Item.mark]

theorem edge_marks :
    Progress.edge d.placement ((Item.around symbol pre post).map Item.mark).reverse =
        some (.operator symbol) ↔
      pre.length = d.operatorIndex (pre.length + post.length) := by
  rw [operatorIndex_eq_iff, marks_around]
  cases d.placement with
  | first =>
      cases pre <;>
        simp [Progress.edge, List.getLast?_append, List.getLast?_cons, List.getLast?_replicate]
  | last => cases post <;> simp [Progress.edge, List.replicate_succ]

/-- The number of operands is judged as it is by the arity. -/
theorem countDefect?_eq (d : Dialect) (symbol : String) (n : Nat) :
    Progress.countDefect? d symbol n =
      if ((d.registry.arity? symbol).map (·.admits n)).getD false then none
      else some (.argumentCount n symbol) := by
  rw [Progress.countDefect?]
  cases d.registry.arity? symbol with
  | none => rfl
  | some arity =>
      cases arity with
      | variadic => cases n <;> simp [Arity.admits]
      | exactly k =>
          by_cases hk : k = n
          · cases n <;> simp [Arity.admits, hk]
          · have hk' : n ≠ k := fun e => hk e.symm
            cases n <;> simp [Arity.admits, hk, hk']

/-- **Marks suffice.** A pass that keeps marks finds the defect that the items have. -/
theorem groupDefect?_marks (d : Dialect) (items : List Item) :
    Progress.groupDefect? d (items.map Item.mark).reverse =
      match d.close items with
      | .error defect => some defect
      | .ok _ => none := by
  -- no operation, several, or one; only of one do the place and the operands matter
  cases hops : items.filterMap Item.operator? with
  | nil => simp [Progress.groupDefect?, findSome?_marks, hops, close]
  | cons symbol more =>
      cases more with
      | cons s more =>
          have hclose : d.close items = .error (.operationCount (symbol :: s :: more).length) := by
            simp [close, hops]
          obtain ⟨final, hfinal⟩ : ∃ final, (symbol :: s :: more).getLast? = some final :=
            Option.isSome_iff_exists.mp (by simp)
          rw [hclose, Progress.groupDefect?, findSome?_marks, countP_marks, hops, hfinal]
          simp
      | nil =>
          obtain ⟨pre, post, rfl⟩ := Item.split_of_one_operator hops
          have hlength : ((Item.around symbol pre post).map Item.mark).reverse.length - 1 =
              pre.length + post.length := by
            simp only [marks_around, List.length_append, List.length_cons, List.length_replicate]
            omega
          rw [close_around, Progress.groupDefect?, findSome?_marks, countP_marks, hops]
          simp only [List.getLast?_singleton, List.length_singleton, hlength, countDefect?_eq,
            ne_eq, edge_marks, not_true_eq_false, if_false]
          split
          · rfl
          · split <;> rfl

end Dialect
end Formulary
