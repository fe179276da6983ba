import Formulary.Proofs.Derivative.Slopes
import Formulary.Proofs.Formula.Preorder

/-!
# Derivatives at regular points

A point is regular for a formula when every operation in it has a slope at the
values of its operands. There a formula without problems has a derivative, which
means the slope of what the formula means. The proof goes by induction on the
formula, with the rule of the operation at each node.
-/

namespace Formulary

namespace Formula

variable {α : Type} (A : Arithmetic α) (smooth : Operation → List α → Prop) (point : String → α)

mutual
/-- Whether every operation in a formula is smooth at the values of its operands. -/
def RegularAt : Formula → Prop
  | .const _ => True
  | .var _ => True
  | .apply symbol xs =>
    (∀ o values, Operation.ofSymbol? symbol = some o → meanings A point xs = .ok values →
      smooth o values) ∧ RegularAllAt xs
def RegularAllAt : List Formula → Prop
  | [] => True
  | x :: xs => RegularAt x ∧ RegularAllAt xs
end

variable {A smooth point} in
theorem regularAt_op {o : Operation} {xs : List Formula} {values : List α}
    (hvalues : meanings A point xs = .ok values) (hsmooth : smooth o values)
    (hxs : RegularAllAt A smooth point xs) : (op o xs).RegularAt A smooth point := by
  rw [op, RegularAt]
  refine ⟨?_, hxs⟩
  intro o' values' ho' hvalues'
  rw [Operation.ofSymbol?_symbol] at ho'
  rw [hvalues] at hvalues'
  cases ho'
  cases hvalues'
  exact hsmooth

/-- When no operand has a fault, the order in which they are differentiated does not matter. -/
theorem collect_ok (o : Operation) (ds : List Dual) :
    collect o (ds.map .ok : List (Except DerivativeFault Dual)) = .ok ds := by
  have hmap : ∀ ds : List Dual,
      (ds.map .ok : List (Except DerivativeFault Dual)).mapM id = .ok ds := by
    intro ds
    induction ds with
    | nil => rfl
    | cons d ds ih =>
        rw [List.map_cons, List.mapM_cons, ih]
        rfl
  cases o with
  | log =>
      show ((ds.map Except.ok).reverse.mapM id).map List.reverse = Except.ok ds
      rw [← List.map_reverse, hmap, Except.map, List.reverse_reverse]
  | _ => exact hmap ds

/-- What a formula without problems has at its root: an operation with a number of operands
that it takes. -/
theorem operation_of_problems_eq_nil {symbol : String} {xs : List Formula}
    (h : (apply symbol xs).problems Registry.standard = []) :
    (∃ o, Operation.ofSymbol? symbol = some o ∧ o.arity.admits xs.length = true) ∧
      ∀ x ∈ xs, x.problems Registry.standard = [] := by
  obtain ⟨hroot, hoperands⟩ := (problems_eq_nil_iff _ _).mp h
  exact ⟨problem?_apply_eq_none_iff.mp hroot, hoperands⟩

end Formula

theorem Operation.differentiates_of_admits {o : Operation} {count : Nat}
    (h : o.arity.admits count = true) : o.differentiates count = true := by
  obtain ⟨-, hcount⟩ := (Bool.and_eq_true _ _).mp h
  unfold differentiates
  cases ho : o.arity with
  | variadic => rfl
  | exactly n =>
      rw [ho] at hcount
      exact hcount

namespace Calculus

open Formula

variable {K Q : Type} [Field K] (C : Calculus K Q) {pointQ : String → Q}
  {pointK : String → K} {v : String}

theorem tracked_const (value : Float) :
    ∃ f a, Tracked C pointQ pointK ⟨.const value, zero⟩ f a 0 := by
  have hzero := C.values_zero pointK
  cases heuler : value == Binary64.eulerNumber with
  | true =>
      refine ⟨C.quantities.euler, C.euler, ?_, ?_, hzero, C.hasSlope_euler⟩
      · rw [meaning, heuler]
        rfl
      · rw [meaning, heuler]
        rfl
  | false =>
      exact ⟨_, _, meaning_const heuler, meaning_const heuler, hzero, C.hasSlope_ofFloat value⟩

theorem tracked_var {name : String}
    (hname : C.HasSlope (pointQ name) (pointK name) (if v = name then 1 else 0)) :
    Tracked C pointQ pointK ⟨.var name, if v = name then one else zero⟩ (pointQ name)
      (pointK name) (if v = name then 1 else 0) where
  quantity := rfl
  value := rfl
  slope := by
    split
    · exact C.values_one pointK
    · exact C.values_zero pointK
  hasSlope := hname

/-- At the point the argument `v` has the slope one, and the other arguments have the slope
zero. -/
def Along (v : String) (pointQ : String → Q) (pointK : String → K) : Prop :=
  ∀ name ∈ argumentNames, C.HasSlope (pointQ name) (pointK name) (if v = name then 1 else 0)

mutual
/-- **Correctness.** At a regular point the derivative of a formula without problems means the
slope of what the formula means. -/
theorem tracked [CharZero K] (hpoint : C.Along v pointQ pointK) : (t : Formula) →
    t.problems Registry.standard = [] →
    t.RegularAt C.values C.Smooth pointK →
    ∃ d f a a', t.derivative v = .ok d ∧ Tracked C pointQ pointK ⟨t, d⟩ f a a'
  | .const value, _, _ => by
      obtain ⟨f, a, htracked⟩ := C.tracked_const value
      exact ⟨zero, f, a, 0, rfl, htracked⟩
  | .var name, hvalid, _ => by
      obtain ⟨hroot, -⟩ := (problems_eq_nil_iff _ _).mp hvalid
      have hname : name ∈ argumentNames := by
        rw [problem?] at hroot
        cases hmem : argumentNames.contains name with
        | true => exact List.contains_iff_mem.mp hmem
        | false =>
            rw [hmem] at hroot
            cases hroot
      exact ⟨_, _, _, _, rfl, C.tracked_var (hpoint name hname)⟩
  | .apply symbol xs, hvalid, hregular => by
      obtain ⟨⟨o, ho, hadmits⟩, hoperands⟩ := operation_of_problems_eq_nil hvalid
      rw [RegularAt] at hregular
      -- the operands first, then the operation's rule at their values
      obtain ⟨ds, fs, as, as', hduals, hformulas, hall⟩ :=
        trackedAll hpoint xs hoperands hregular.2
      have hlength : ds.length = xs.length := by rw [← hformulas, List.length_map]
      have hsmooth : C.Smooth o as := hregular.1 o as ho (hformulas ▸ hall.values)
      obtain ⟨d, f, a, a', hd, hformula, htracked⟩ := hall.dual? (hlength ▸ hadmits) hsmooth
      have hwhole : d.formula = apply symbol xs := by
        rw [hformula, hformulas, op, Operation.symbol_of_ofSymbol? ho]
      have hderivative : (apply symbol xs).derivative v = .ok d.slope := by
        rw [derivative, ho]
        simp only [Operation.differentiates_of_admits hadmits, hduals, collect_ok, hd, if_true]
      exact ⟨d.slope, f, a, a', hderivative, hwhole ▸ htracked⟩
theorem trackedAll [CharZero K] (hpoint : C.Along v pointQ pointK) : (xs : List Formula) →
    (∀ x ∈ xs, x.problems Registry.standard = []) →
    RegularAllAt C.values C.Smooth pointK xs →
    ∃ ds fs as as', duals v xs = ds.map .ok ∧ ds.map Dual.formula = xs ∧
      TrackedAll C pointQ pointK ds fs as as'
  | [], _, _ => ⟨[], [], [], [], rfl, rfl, .nil⟩
  | x :: xs, hvalid, hregular => by
      obtain ⟨hx, hxs⟩ := List.forall_mem_cons.mp hvalid
      rw [RegularAllAt] at hregular
      obtain ⟨d, f, a, a', hd, htracked⟩ := tracked hpoint x hx hregular.1
      obtain ⟨ds, fs, as, as', hduals, hformulas, hall⟩ :=
        trackedAll hpoint xs hxs hregular.2
      refine ⟨⟨x, d⟩ :: ds, f :: fs, a :: as, a' :: as', ?_, ?_, .cons htracked hall⟩
      · rw [duals, hd, hduals]
        rfl
      · rw [List.map_cons, hformulas]
end

end Calculus
end Formulary
