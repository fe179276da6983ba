import Formulary.Proofs.Derivative.Closure

/-!
# What is read

Evaluation looks at an argument when it comes to a name, and at no other time. So two
lists of arguments that give the same for every name in a formula cannot be told apart
by evaluating it, and if that fails it fails with the same fault (`evaluate_congr`). The
rules of differentiation bring in constants but no names (`ReadsOnly.derivative`), so
derivatives do not look at anything else either.
-/

namespace Formulary

namespace Formula

/-! ## The names of a formula -/

/-- Whether all names in a formula satisfy a condition. -/
def ReadsOnly (P : String → Prop) (t : Formula) : Prop := ∀ name ∈ t.names, P name

variable {P : String → Prop}

theorem readsOnly_const (value : Float) : (const value).ReadsOnly P := by
  have hnames : (const value).names = [] := filterMap_nodes name? _
  rw [ReadsOnly, hnames]
  exact List.forall_mem_nil _

theorem readsOnly_var {name : String} : (var name).ReadsOnly P ↔ P name := by
  have hnames : (var name).names = [name] := filterMap_nodes name? _
  rw [ReadsOnly, hnames, List.forall_mem_singleton]

theorem readsOnly_apply {symbol : String} {xs : List Formula} :
    (apply symbol xs).ReadsOnly P ↔ ∀ x ∈ xs, x.ReadsOnly P := by
  have hnames : (apply symbol xs).names = xs.flatMap names := filterMap_nodes name? _
  rw [ReadsOnly, hnames, List.forall_mem_flatMap]
  rfl

theorem readsOnly_single {o : Operation} {x : Formula} :
    (op o [x]).ReadsOnly P ↔ x.ReadsOnly P :=
  readsOnly_apply.trans List.forall_mem_singleton

theorem readsOnly_pair {o : Operation} {x y : Formula} :
    (op o [x, y]).ReadsOnly P ↔ x.ReadsOnly P ∧ y.ReadsOnly P := by
  rw [op, readsOnly_apply, List.forall_mem_cons, List.forall_mem_singleton]

/-! ## Two runs -/

variable {α : Type} {A : Arithmetic α} {argument other : Nat → Except EvalFault (Grid α)}

theorem evaluateAll_congr {xs : List Formula}
    (h : ∀ x ∈ xs, x.evaluate A argument = x.evaluate A other) :
    evaluateAll A argument xs = evaluateAll A other xs := by
  induction xs with
  | nil => rfl
  | cons x xs ih =>
      obtain ⟨hx, hxs⟩ := List.forall_mem_cons.mp h
      rw [evaluateAll_cons, evaluateAll_cons, hx, ih hxs]

/-- **Agreement.** What is given for other names than those of a formula has no part in its value,
nor in its fault if it has none. -/
theorem evaluate_congr {t : Formula}
    (h : t.ReadsOnly fun name => ∀ i, argumentIndex? name = some i → argument i = other i) :
    t.evaluate A argument = t.evaluate A other := by
  induction t using operandsInduction with
  | const value => rfl
  | var name =>
      rw [evaluate, evaluate]
      cases hi : argumentIndex? name with
      | none => rfl
      | some i => exact readsOnly_var.mp h i hi
  | apply symbol xs ih =>
      have hoperands := evaluateAll_congr fun x hx => ih x hx (readsOnly_apply.mp h x hx)
      cases ho : Operation.ofSymbol? symbol with
      | none => rw [evaluate, evaluate, ho]
      | some o => rw [evaluate_apply ho, evaluate_apply ho, hoperands]

end Formula

/-! ## The rules -/

namespace Dual

open Formula

variable {P : String → Prop} {x y : Dual} {xs : List Dual}

/-- A formula and its derivative, both with names that satisfy a condition. -/
structure ReadsOnly (P : String → Prop) (x : Dual) : Prop where
  formula : x.formula.ReadsOnly P
  slope : x.slope.ReadsOnly P

theorem ReadsOnly.minus (hx : x.ReadsOnly P) (hy : y.ReadsOnly P) : (x.minus y).ReadsOnly P where
  formula := readsOnly_pair.mpr ⟨hx.formula, hy.formula⟩
  slope := readsOnly_pair.mpr ⟨hx.slope, hy.slope⟩

theorem ReadsOnly.times (hx : x.ReadsOnly P) (hy : y.ReadsOnly P) : (x.times y).ReadsOnly P where
  formula := readsOnly_pair.mpr ⟨hx.formula, hy.formula⟩
  slope := readsOnly_pair.mpr
    ⟨readsOnly_pair.mpr ⟨hx.slope, hy.formula⟩, readsOnly_pair.mpr ⟨hx.formula, hy.slope⟩⟩

theorem ReadsOnly.mean (hxs : ∀ x ∈ xs, x.ReadsOnly P) : (Dual.mean xs).ReadsOnly P where
  formula := readsOnly_apply.mpr (List.forall_mem_map.mpr fun x hx => (hxs x hx).formula)
  slope := by
    have htotal := total_of_plus (fun hx hy => readsOnly_pair.mpr ⟨hx, hy⟩)
      (fun x hx => (hxs x hx).slope) (readsOnly_const 0)
    exact readsOnly_pair.mpr ⟨htotal, readsOnly_const _⟩

end Dual

namespace Operation

open Formula

/-- **Rules.** No rule brings in a name. -/
theorem readsOnly_dual? {P : String → Prop} {o : Operation} {ds : List Dual} {dual : Dual}
    (hdual : o.dual? ds = some dual) (hds : ∀ d ∈ ds, d.ReadsOnly P) :
    dual.slope.ReadsOnly P := by
  cases rule_of_dual? hdual with
  | plus x y | minus x y =>
      obtain ⟨hx, hy⟩ := List.forall_mem_cons.mp hds
      exact readsOnly_pair.mpr ⟨hx.slope, (List.forall_mem_singleton.mp hy).slope⟩
  | negate x => exact readsOnly_single.mpr (List.forall_mem_singleton.mp hds).slope
  | times x y =>
      obtain ⟨hx, hy⟩ := List.forall_mem_cons.mp hds
      exact (hx.times (List.forall_mem_singleton.mp hy)).slope
  | divide x y | power x y | log x y =>
      obtain ⟨⟨hx, hx'⟩, hys⟩ := List.forall_mem_cons.mp hds
      obtain ⟨hy, hy'⟩ := List.forall_mem_singleton.mp hys
      simp only [Dual.divide, Dual.power, Dual.log, Formula.divide, Formula.minus, Formula.times,
        Formula.plus, Formula.power, ln, Formula.log, readsOnly_pair, hx, hx', hy, hy', one, euler,
        readsOnly_const, and_self]
  | mean => exact (Dual.ReadsOnly.mean hds).slope
  | variance =>
      have hsquares : ∀ d ∈ ds.map Dual.square, d.ReadsOnly P :=
        List.forall_mem_map.mpr fun d hd => (hds d hd).times (hds d hd)
      have hmean := Dual.ReadsOnly.mean hds
      exact ((Dual.ReadsOnly.mean hsquares).minus (hmean.times hmean)).slope

end Operation

namespace Formula

/-- **Derivatives.** A derivative has no names that the formula has not, even if the formula has
problems. -/
theorem ReadsOnly.derivative {P : String → Prop} {t d : Formula} {v : String}
    (h : t.ReadsOnly P) (hd : t.derivative v = .ok d) : d.ReadsOnly P := by
  induction t using operandsInduction generalizing d with
  | const value =>
      cases hd
      exact readsOnly_const 0
  | var name =>
      cases hd
      split <;> exact readsOnly_const _
  | apply symbol xs ih =>
      obtain ⟨o, ds, dual, -, hds, hdual, rfl⟩ := derivative_apply_eq_ok_iff.mp hd
      obtain ⟨rfl, hslopes⟩ := derivative_of_duals hds
      have hoperands := List.forall_mem_map.mp (readsOnly_apply.mp h)
      refine Operation.readsOnly_dual? hdual fun d hd => ⟨hoperands d hd, ?_⟩
      exact ih d.formula (List.mem_map_of_mem hd) (hoperands d hd) (hslopes d hd)

/-! ## Lists of arguments -/

/-- **What is read.** If two lists of arguments have the same at the position of each name in a
formula, or are both too short for it, the formula has the same value at both or the same fault.
The same goes for its derivatives. What else is in the lists, and how long they are, is never
noticed. -/
theorem evaluateAt_eq_of_names {t : Formula} {given other : List Argument}
    (h : ∀ name ∈ t.names, ∀ i, argumentIndex? name = some i → given[i]? = other[i]?) :
    t.evaluateAt given = t.evaluateAt other ∧
      ∀ v d, t.derivative v = .ok d → d.evaluateAt given = d.evaluateAt other := by
  have hread : t.ReadsOnly fun name => ∀ i, argumentIndex? name = some i →
      argumentAt given i = argumentAt other i := by
    intro name hname i hi
    rw [argumentAt, argumentAt, h name hname i hi]
  exact ⟨evaluate_congr hread, fun v d hd => evaluate_congr (hread.derivative hd)⟩

/-- A surplus text, and a second argument that is missing in one list and a record in the other: a
formula that only reads the first has the same fault, and its derivative by a name that is no
argument the same value. -/
theorem evaluateAt_eq_of_names_unknownName :
    let t := apply "*" [var "x", apply "var" [var "w", var "x"]]
    (∀ name ∈ t.names, ∀ i, argumentIndex? name = some i →
        [Argument.number 2, .record, .text][i]? = [Argument.number 2][i]?) ∧
      t.evaluateAt [.number 2, .record, .text] = t.evaluateAt [.number 2] ∧
      ∃ d, t.derivative "w" = .ok d ∧
        d.evaluateAt [.number 2, .record, .text] = d.evaluateAt [.number 2] := by
  intro t
  have hnames : ∀ name ∈ t.names, ∀ i, argumentIndex? name = some i →
      [Argument.number 2, .record, .text][i]? = [Argument.number 2][i]? := by
    have hread : t.names = ["x", "w", "x"] := by
      rw [names, nodes_depthFirst]
      rfl
    rw [hread]
    intro name hname i hi
    simp only [List.mem_cons, List.not_mem_nil, or_false] at hname
    obtain rfl | rfl | rfl := hname <;> cases hi <;> rfl
  obtain ⟨hvalue, hslope⟩ := evaluateAt_eq_of_names hnames
  exact ⟨hnames, hvalue, _, rfl, hslope _ _ rfl⟩

end Formula
end Formulary
