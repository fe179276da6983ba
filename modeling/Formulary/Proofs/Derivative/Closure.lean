import Formulary.Proofs.Derivative.Regular
import Formulary.Proofs.Value.Faults

/-!
# Differentiating again and again

A formula has a derivative when every operation in it has a rule for its number
of operands, and it is the same for every name. The rules make nothing of their
own but a few constants and operations with one or two operands; all else, the
names and the numbers of operands among it, is taken over from the formula. So
what the nodes of a formula are made of (`Material`) is what those of its
derivative are made of, and a valid formula stays valid however often it is
differentiated.
-/

namespace Formulary

namespace Operation

/-- What the rule of an operation makes of which operands. -/
inductive Rule : Operation → List Dual → Dual → Prop
  | plus (x y : Dual) : Rule .plus [x, y] (x.plus y)
  | minus (x y : Dual) : Rule .minus [x, y] (x.minus y)
  | negate (x : Dual) : Rule .negate [x] x.negate
  | times (x y : Dual) : Rule .times [x, y] (x.times y)
  | divide (x y : Dual) : Rule .divide [x, y] (x.divide y)
  | power (x y : Dual) : Rule .power [x, y] (x.power y)
  | log (x y : Dual) : Rule .log [x, y] (x.log y)
  | mean (xs : List Dual) : Rule .mean xs (.mean xs)
  | variance (xs : List Dual) : Rule .variance xs (.variance xs)

theorem rule_of_dual? {o : Operation} {ds : List Dual} {dual : Dual}
    (h : o.dual? ds = some dual) : o.Rule ds dual := by
  unfold dual? at h
  split at h <;> cases h <;> constructor

/-- A rule differentiates the operation applied to its operands. -/
theorem formula_of_dual? {o : Operation} {ds : List Dual} {dual : Dual}
    (h : o.dual? ds = some dual) : dual.formula = Formula.op o (ds.map Dual.formula) := by
  cases rule_of_dual? h <;> rfl

end Operation

namespace Formula

/-! ## Which formulas have a derivative -/

/-- A node that is no operation, or one with a rule for its number of operands. -/
def HasRule : Formula → Prop
  | .const _ => True
  | .var _ => True
  | .apply symbol xs =>
    ∃ o, Operation.ofSymbol? symbol = some o ∧ o.differentiates xs.length = true

theorem not_hasRule_apply {symbol : String} {xs : List Formula} :
    ¬ (apply symbol xs).HasRule ↔ Registry.standard.arity? symbol = none ∨
      ∃ n, Registry.standard.arity? symbol = some (.exactly n) ∧ xs.length ≠ n := by
  rw [HasRule, Registry.standard_arity?]
  cases ho : Operation.ofSymbol? symbol with
  | none => simp
  | some o =>
      cases harity : o.arity with
      | variadic => simp [harity, Operation.differentiates]
      | exactly n =>
          simp only [Option.some.injEq, exists_eq_left', Operation.differentiates, harity,
            beq_iff_eq, Option.map_some, reduceCtorEq, Arity.exactly.injEq, false_or]
          exact ne_comm

theorem eq_map_of_mapM_id {rs : List (Except DerivativeFault Dual)} {ds : List Dual}
    (h : rs.mapM id = .ok ds) : rs = ds.map .ok := by
  induction rs generalizing ds with
  | nil =>
      cases h
      rfl
  | cons r rs ih =>
      rw [List.mapM_cons] at h
      cases r with
      | error fault => cases h
      | ok d =>
          cases hrs : rs.mapM id with
          | error fault =>
              rw [hrs] at h
              cases h
          | ok later =>
              rw [hrs] at h
              cases h
              rw [List.map_cons, ← ih hrs]

/-- Whichever operand is differentiated first, slopes come of all or of none. -/
theorem collect_eq_ok_iff {o : Operation} {rs : List (Except DerivativeFault Dual)}
    {ds : List Dual} : collect o rs = .ok ds ↔ rs = ds.map .ok := by
  constructor
  · intro h
    cases o with
    | log =>
        have hreverse : (rs.reverse.mapM id).map List.reverse = .ok ds := h
        cases hrs : rs.reverse.mapM id with
        | error fault =>
            rw [hrs] at hreverse
            cases hreverse
        | ok later =>
            rw [hrs] at hreverse
            cases hreverse
            rw [List.map_reverse, ← eq_map_of_mapM_id hrs, List.reverse_reverse]
    | _ => exact eq_map_of_mapM_id h
  · rintro rfl
    exact collect_ok o ds

/-- A rule exists for the numbers of operands that an operation is differentiated with. -/
theorem dual?_isSome (o : Operation) (ds : List Dual) :
    (o.dual? ds).isSome = o.differentiates ds.length := by
  cases o with
  | mean => rfl
  | variance => rfl
  | negate => rcases ds with _ | ⟨x, _ | ⟨y, ds⟩⟩ <;> rfl
  | _ => rcases ds with _ | ⟨x, _ | ⟨y, _ | ⟨z, ds⟩⟩⟩ <;> rfl

theorem length_of_duals {v : String} {xs : List Formula} {ds : List Dual}
    (h : duals v xs = ds.map .ok) : ds.length = xs.length := by
  have hlength := congrArg List.length h
  rw [duals_eq_map, List.length_map, List.length_map] at hlength
  exact hlength.symm

theorem exists_pair {β : Type} {P : β → Prop} {xs : List β} (hlength : xs.length = 2)
    (hxs : ∀ x ∈ xs, P x) : ∃ x y, xs = [x, y] ∧ P x ∧ P y := by
  obtain ⟨x, y, rfl⟩ := List.length_eq_two.mp hlength
  obtain ⟨hx, hy⟩ := List.forall_mem_cons.mp hxs
  exact ⟨x, y, rfl, hx, List.forall_mem_singleton.mp hy⟩

/-- An operation has a derivative when its operands have and there is a rule for it. -/
theorem derivative_apply_eq_ok_iff {v symbol : String} {xs : List Formula} {d : Formula} :
    (apply symbol xs).derivative v = .ok d ↔ ∃ o ds dual, Operation.ofSymbol? symbol = some o ∧
      duals v xs = ds.map .ok ∧ o.dual? ds = some dual ∧ dual.slope = d := by
  rw [derivative]
  cases ho : Operation.ofSymbol? symbol with
  | none => simp
  | some o =>
      dsimp only
      constructor
      · intro h
        split at h
        · split at h
          · cases h
          · next ds hcollect =>
              split at h
              · cases h
              · next dual hdual =>
                  cases h
                  exact ⟨o, ds, dual, rfl, collect_eq_ok_iff.mp hcollect, hdual, rfl⟩
        · cases h
      · rintro ⟨o', ds, dual, ho', hds, hdual, rfl⟩
        cases ho'
        have hdifferentiates : o.differentiates xs.length = true := by
          rw [← length_of_duals hds, ← dual?_isSome, hdual]
          rfl
        simp only [hdifferentiates, if_true, collect_eq_ok_iff.mpr hds, hdual]

/-- The slopes of operands that have derivatives. -/
theorem exists_duals {v : String} {P : Dual → Prop} {xs : List Formula}
    (h : ∀ x ∈ xs, ∃ d, x.derivative v = .ok d ∧ P ⟨x, d⟩) :
    ∃ ds : List Dual, duals v xs = ds.map .ok ∧ ∀ d ∈ ds, P d := by
  induction xs with
  | nil => exact ⟨[], rfl, List.forall_mem_nil _⟩
  | cons x xs ih =>
      obtain ⟨⟨d, hd, hx⟩, hxs⟩ := List.forall_mem_cons.mp h
      obtain ⟨ds, hds, hall⟩ := ih hxs
      refine ⟨⟨x, d⟩ :: ds, ?_, List.forall_mem_cons.mpr ⟨hx, hall⟩⟩
      rw [duals, hd, hds]
      rfl

/-- The operands with their slopes. -/
theorem derivative_of_duals {v : String} {xs : List Formula} {ds : List Dual}
    (h : duals v xs = ds.map .ok) :
    ds.map Dual.formula = xs ∧ ∀ d ∈ ds, d.formula.derivative v = .ok d.slope := by
  induction xs generalizing ds with
  | nil =>
      obtain rfl : ds = [] := List.map_eq_nil_iff.mp h.symm
      exact ⟨rfl, List.forall_mem_nil _⟩
  | cons x xs ih =>
      cases ds with
      | nil => cases h
      | cons d ds =>
          rw [duals, List.map_cons, List.cons.injEq] at h
          obtain ⟨hformulas, hslopes⟩ := ih h.2
          cases hx : x.derivative v with
          | error fault =>
              rw [hx] at h
              cases h.1
          | ok slope =>
              rw [hx] at h
              cases h.1
              exact ⟨by rw [List.map_cons, hformulas], List.forall_mem_cons.mpr ⟨hx, hslopes⟩⟩

theorem exists_derivative_of_duals {v : String} {xs : List Formula} {ds : List Dual}
    (h : duals v xs = ds.map .ok) {x : Formula} (hx : x ∈ xs) : ∃ d, x.derivative v = .ok d := by
  obtain ⟨hformulas, hslopes⟩ := derivative_of_duals h
  rw [← hformulas] at hx
  obtain ⟨d, hd, rfl⟩ := List.mem_map.mp hx
  exact ⟨d.slope, hslopes d hd⟩

/-- **Faults.** A formula has a derivative exactly when all its nodes have rules. -/
theorem derivative_isOk_iff (v : String) (t : Formula) :
    (∃ d, t.derivative v = .ok d) ↔ ∀ node ∈ t.nodes .depthFirst, node.HasRule := by
  induction t using operandsInduction with
  | const value =>
      rw [forall_nodes_iff]
      exact iff_of_true ⟨zero, rfl⟩ ⟨trivial, List.forall_mem_nil _⟩
  | var name =>
      rw [forall_nodes_iff]
      exact iff_of_true ⟨_, rfl⟩ ⟨trivial, List.forall_mem_nil _⟩
  | apply symbol xs ih =>
      rw [forall_nodes_iff]
      constructor
      · rintro ⟨d, hd⟩
        obtain ⟨o, ds, dual, ho, hds, hdual, -⟩ := derivative_apply_eq_ok_iff.mp hd
        refine ⟨⟨o, ho, ?_⟩, fun x hx => (ih x hx).mp (exists_derivative_of_duals hds hx)⟩
        rw [← length_of_duals hds, ← dual?_isSome, hdual]
        rfl
      · rintro ⟨⟨o, ho, hrule⟩, hxs⟩
        have hoperands : ∀ x ∈ xs, ∃ d, x.derivative v = .ok d ∧ True := by
          intro x hx
          obtain ⟨d, hd⟩ := (ih x hx).mpr (hxs x hx)
          exact ⟨d, hd, trivial⟩
        obtain ⟨ds, hds, -⟩ := exists_duals (P := fun _ => True) hoperands
        obtain ⟨dual, hdual⟩ : ∃ dual, o.dual? ds = some dual := by
          rw [← Option.isSome_iff_exists, dual?_isSome, length_of_duals hds, hrule]
        exact ⟨_, derivative_apply_eq_ok_iff.mpr ⟨o, ds, dual, ho, hds, hdual, rfl⟩⟩

theorem derivative_eq_error_iff (v : String) (t : Formula) :
    (∃ fault, t.derivative v = .error fault) ↔ ∃ symbol xs, apply symbol xs ∈ t.nodes .depthFirst ∧
      (Registry.standard.arity? symbol = none ∨
        ∃ n, Registry.standard.arity? symbol = some (.exactly n) ∧ xs.length ≠ n) := by
  have herror : (∃ fault, t.derivative v = .error fault) ↔ ¬ ∃ d, t.derivative v = .ok d := by
    cases t.derivative v <;> simp
  rw [herror, derivative_isOk_iff]
  simp only [not_forall]
  constructor
  · rintro ⟨node, hnode, hrule⟩
    cases node with
    | const value => exact absurd trivial hrule
    | var name => exact absurd trivial hrule
    | apply symbol xs => exact ⟨symbol, xs, hnode, not_hasRule_apply.mp hrule⟩
  · rintro ⟨symbol, xs, hnode, hrule⟩
    exact ⟨apply symbol xs, hnode, not_hasRule_apply.mpr hrule⟩

end Formula

/-! ## What formulas are made of -/

/-- What the nodes of a formula are made of: names, constants and numbers of operands, among them
all that the rules of differentiation bring in by themselves. -/
structure Material where
  Name : String → Prop
  Constant : Float → Prop
  Count : Nat → Prop
  zero : Constant 0
  one : Constant 1
  euler : Constant Binary64.eulerNumber
  count_one : Count 1
  count_two : Count 2
  /-- the mean is differentiated as a sum over the number of its operands -/
  ofNat {n : Nat} : Count n → Constant (Binary64.ofNat n)

variable {M : Material}

namespace Formula

/-- Whether a node is made of the material, and is an operation with a number of operands that it
takes if it is an operation. -/
def IsOf (M : Material) : Formula → Prop
  | .const value => M.Constant value
  | .var name => M.Name name
  | .apply symbol xs => M.Count xs.length ∧
      ∃ o, Operation.ofSymbol? symbol = some o ∧ o.arity.admits xs.length = true

/-- Whether all nodes are. -/
def MadeOf (M : Material) (t : Formula) : Prop := ∀ node ∈ t.nodes .depthFirst, node.IsOf M

theorem madeOf_iff {t : Formula} :
    t.MadeOf M ↔ t.IsOf M ∧ ∀ x ∈ t.operands, x.MadeOf M := forall_nodes_iff

theorem madeOf_const {value : Float} (h : M.Constant value) : (const value).MadeOf M :=
  madeOf_iff.mpr ⟨h, List.forall_mem_nil _⟩

theorem madeOf_op {o : Operation} {xs : List Formula} (hcount : M.Count xs.length)
    (hadmits : o.arity.admits xs.length = true) (hxs : ∀ x ∈ xs, x.MadeOf M) :
    (op o xs).MadeOf M :=
  madeOf_iff.mpr ⟨⟨hcount, o, Operation.ofSymbol?_symbol o, hadmits⟩, hxs⟩

theorem madeOf_pair {o : Operation} {x y : Formula} (ho : o.arity = .exactly 2)
    (hx : x.MadeOf M) (hy : y.MadeOf M) : (op o [x, y]).MadeOf M :=
  madeOf_op M.count_two (by rw [ho]; rfl)
    (List.forall_mem_cons.mpr ⟨hx, List.forall_mem_singleton.mpr hy⟩)

theorem madeOf_negate {x : Formula} (hx : x.MadeOf M) : (negate x).MadeOf M :=
  madeOf_op M.count_one rfl (List.forall_mem_singleton.mpr hx)

theorem madeOf_ln {x : Formula} (hx : x.MadeOf M) : (ln x).MadeOf M :=
  madeOf_pair rfl (madeOf_const M.euler) hx

theorem madeOf_square {x : Formula} (hx : x.MadeOf M) : (square x).MadeOf M :=
  madeOf_pair rfl hx hx

theorem madeOf_average {o : Operation} {xs : List Formula} (ho : o.arity = .variadic)
    (hne : xs.length ≠ 0) (hcount : M.Count xs.length) (hxs : ∀ x ∈ xs, x.MadeOf M) :
    (op o xs).MadeOf M := by
  have hadmits : o.arity.admits xs.length = true := by
    rw [ho]
    show (xs.length != 0 && true) = true
    simpa using hne
  exact madeOf_op hcount hadmits hxs

end Formula

/-! ## The rules -/

namespace Dual

open Formula

/-- A formula and its derivative, both made of the material. -/
structure MadeOf (M : Material) (x : Dual) : Prop where
  formula : x.formula.MadeOf M
  slope : x.slope.MadeOf M

variable {x y : Dual} {xs : List Dual}

theorem MadeOf.plus (hx : x.MadeOf M) (hy : y.MadeOf M) : (x.plus y).MadeOf M where
  formula := madeOf_pair rfl hx.formula hy.formula
  slope := madeOf_pair rfl hx.slope hy.slope

theorem MadeOf.minus (hx : x.MadeOf M) (hy : y.MadeOf M) : (x.minus y).MadeOf M where
  formula := madeOf_pair rfl hx.formula hy.formula
  slope := madeOf_pair rfl hx.slope hy.slope

theorem MadeOf.negate (hx : x.MadeOf M) : x.negate.MadeOf M where
  formula := madeOf_negate hx.formula
  slope := madeOf_negate hx.slope

theorem MadeOf.times (hx : x.MadeOf M) (hy : y.MadeOf M) : (x.times y).MadeOf M where
  formula := madeOf_pair rfl hx.formula hy.formula
  slope := madeOf_pair rfl (madeOf_pair rfl hx.slope hy.formula)
    (madeOf_pair rfl hx.formula hy.slope)

theorem MadeOf.divide (hx : x.MadeOf M) (hy : y.MadeOf M) : (x.divide y).MadeOf M where
  formula := madeOf_pair rfl hx.formula hy.formula
  slope := by
    have hnumerator : (Formula.minus (.times x.slope y.formula)
        (.times x.formula y.slope)).MadeOf M :=
      madeOf_pair rfl (madeOf_pair rfl hx.slope hy.formula) (madeOf_pair rfl hx.formula hy.slope)
    exact madeOf_pair rfl hnumerator (madeOf_square hy.formula)

theorem MadeOf.power (hx : x.MadeOf M) (hy : y.MadeOf M) : (x.power y).MadeOf M where
  formula := madeOf_pair rfl hx.formula hy.formula
  slope := by
    have hreduced : (Formula.power x.formula (.minus y.formula one)).MadeOf M :=
      madeOf_pair rfl hx.formula (madeOf_pair rfl hy.formula (madeOf_const M.one))
    have hbase : (Formula.times y.formula x.slope).MadeOf M :=
      madeOf_pair rfl hy.formula hx.slope
    have hexponent : (Formula.times (.times x.formula y.slope) (ln x.formula)).MadeOf M :=
      madeOf_pair rfl (madeOf_pair rfl hx.formula hy.slope) (madeOf_ln hx.formula)
    exact madeOf_pair rfl hreduced (madeOf_pair rfl hbase hexponent)

theorem MadeOf.log (hx : x.MadeOf M) (hy : y.MadeOf M) : (x.log y).MadeOf M where
  formula := madeOf_pair rfl hx.formula hy.formula
  slope := by
    have hterm : ∀ {a b c : Formula}, a.MadeOf M → b.MadeOf M → c.MadeOf M →
        (Formula.times (.times (ln a) b) (.divide one c)).MadeOf M :=
      fun ha hb hc => madeOf_pair rfl (madeOf_pair rfl (madeOf_ln ha) hb)
        (madeOf_pair rfl (madeOf_const M.one) hc)
    have hnumerator : (Formula.minus
        (.times (.times (ln x.formula) y.slope) (.divide one y.formula))
        (.times (.times (ln y.formula) x.slope) (.divide one x.formula))).MadeOf M :=
      madeOf_pair rfl (hterm hx.formula hy.slope hy.formula)
        (hterm hy.formula hx.slope hx.formula)
    exact madeOf_pair rfl hnumerator (madeOf_square (madeOf_ln hx.formula))

/-- What sums take over from their terms holds of slopes that are added up in a row. -/
theorem total_of_plus {P : Formula → Prop}
    (hplus : ∀ {x y : Formula}, P x → P y → P (Formula.plus x y)) (hxs : ∀ x ∈ xs, P x.slope)
    {start : Formula} (hstart : P start) :
    P (xs.foldl (fun total x => Formula.plus total x.slope) start) := by
  induction xs generalizing start with
  | nil => exact hstart
  | cons x xs ih =>
      obtain ⟨hx, hxs⟩ := List.forall_mem_cons.mp hxs
      exact ih hxs (hplus hstart hx)

theorem madeOf_total (hxs : ∀ x ∈ xs, x.MadeOf M) {start : Formula} (hstart : start.MadeOf M) :
    (xs.foldl (fun total x => Formula.plus total x.slope) start).MadeOf M :=
  total_of_plus (madeOf_pair rfl) (fun x hx => (hxs x hx).slope) hstart

theorem MadeOf.mean (hne : xs.length ≠ 0) (hcount : M.Count xs.length)
    (hxs : ∀ x ∈ xs, x.MadeOf M) : (Dual.mean xs).MadeOf M where
  formula := by
    rw [← List.length_map (f := Dual.formula)] at hne hcount
    exact madeOf_average rfl hne hcount (List.forall_mem_map.mpr fun x hx => (hxs x hx).formula)
  slope := by
    have htotal := madeOf_total hxs (madeOf_const M.zero)
    exact madeOf_pair rfl htotal (madeOf_const (M.ofNat hcount))

/-- The slope is that of the mean of the squares minus the square of the mean. -/
theorem MadeOf.variance (hne : xs.length ≠ 0) (hcount : M.Count xs.length)
    (hxs : ∀ x ∈ xs, x.MadeOf M) : (Dual.variance xs).MadeOf M where
  formula := by
    have hformulas : ∀ t ∈ xs.map Dual.formula, t.MadeOf M :=
      List.forall_mem_map.mpr fun x hx => (hxs x hx).formula
    rw [← List.length_map (f := Dual.formula)] at hne hcount
    exact madeOf_average rfl hne hcount hformulas
  slope := by
    have hmean := MadeOf.mean hne hcount hxs
    have hsquares : ∀ x ∈ xs.map Dual.square, x.MadeOf M :=
      List.forall_mem_map.mpr fun x hx => (hxs x hx).times (hxs x hx)
    rw [← List.length_map (f := Dual.square)] at hne hcount
    exact ((MadeOf.mean hne hcount hsquares).minus (hmean.times hmean)).slope

end Dual

namespace Operation

open Formula

/-- **Rules.** What an operation's rule makes of formulas and their derivatives is made of the same
material. -/
theorem dual?_madeOf {o : Operation} {ds : List Dual} (hadmits : o.arity.admits ds.length = true)
    (hcount : M.Count ds.length) (hds : ∀ d ∈ ds, d.MadeOf M) :
    ∃ dual, o.dual? ds = some dual ∧ dual.MadeOf M := by
  have hpair : o.arity = .exactly 2 → ∃ x y, ds = [x, y] ∧ x.MadeOf M ∧ y.MadeOf M := by
    intro ho
    rw [ho] at hadmits
    obtain ⟨x, y, rfl⟩ := List.length_eq_two.mp (Arity.eq_of_admits hadmits)
    exact ⟨x, y, rfl, hds x List.mem_cons_self,
      hds y (List.mem_cons_of_mem _ List.mem_cons_self)⟩
  cases o with
  | plus =>
      obtain ⟨x, y, rfl, hx, hy⟩ := hpair rfl
      exact ⟨_, rfl, hx.plus hy⟩
  | minus =>
      obtain ⟨x, y, rfl, hx, hy⟩ := hpair rfl
      exact ⟨_, rfl, hx.minus hy⟩
  | negate =>
      obtain ⟨x, rfl⟩ := List.length_eq_one_iff.mp (Arity.eq_of_admits hadmits)
      exact ⟨_, rfl, (hds x List.mem_cons_self).negate⟩
  | times =>
      obtain ⟨x, y, rfl, hx, hy⟩ := hpair rfl
      exact ⟨_, rfl, hx.times hy⟩
  | divide =>
      obtain ⟨x, y, rfl, hx, hy⟩ := hpair rfl
      exact ⟨_, rfl, hx.divide hy⟩
  | power =>
      obtain ⟨x, y, rfl, hx, hy⟩ := hpair rfl
      exact ⟨_, rfl, hx.power hy⟩
  | log =>
      obtain ⟨x, y, rfl, hx, hy⟩ := hpair rfl
      exact ⟨_, rfl, hx.log hy⟩
  | mean => exact ⟨_, rfl, .mean (Arity.ne_zero_of_admits hadmits) hcount hds⟩
  | variance => exact ⟨_, rfl, .variance (Arity.ne_zero_of_admits hadmits) hcount hds⟩

end Operation

namespace Formula

/-! ## Derivatives -/

/-- **Step.** A formula has a derivative by any name, made of the same material. -/
theorem MadeOf.derivative {t : Formula} (h : t.MadeOf M) (v : String) :
    ∃ d, t.derivative v = .ok d ∧ d.MadeOf M := by
  induction t using operandsInduction with
  | const value => exact ⟨zero, rfl, madeOf_const M.zero⟩
  | var name =>
      refine ⟨_, rfl, ?_⟩
      split
      · exact madeOf_const M.one
      · exact madeOf_const M.zero
  | apply symbol xs ih =>
      obtain ⟨⟨hcount, o, ho, hadmits⟩, hxs⟩ := madeOf_iff.mp h
      have hduals : ∀ x ∈ xs, ∃ d, x.derivative v = .ok d ∧ Dual.MadeOf M ⟨x, d⟩ := by
        intro x hx
        obtain ⟨d, hd, hmade⟩ := ih x hx (hxs x hx)
        exact ⟨d, hd, hxs x hx, hmade⟩
      obtain ⟨ds, hds, hmade⟩ := exists_duals hduals
      rw [← length_of_duals hds] at hadmits hcount
      obtain ⟨dual, hdual, hmade⟩ := Operation.dual?_madeOf hadmits hcount hmade
      exact ⟨dual.slope, derivative_apply_eq_ok_iff.mpr ⟨o, ds, dual, ho, hds, hdual, rfl⟩,
        hmade.slope⟩

/-- **Run.** So have its derivatives, however many names there are. -/
theorem MadeOf.derivatives {t : Formula} (h : t.MadeOf M) (vs : List String) :
    ∃ u, t.derivatives vs = .ok u ∧ u.MadeOf M := by
  induction vs generalizing t with
  | nil => exact ⟨t, rfl, h⟩
  | cons v vs ih =>
      obtain ⟨d, hd, hmade⟩ := h.derivative v
      obtain ⟨u, hu, hfinal⟩ := ih hmade
      refine ⟨u, ?_, hfinal⟩
      rw [Formula.derivatives, List.foldlM_cons, hd]
      exact hu

end Formula

/-! ## Valid formulas -/

namespace Material

/-- What valid formulas with the given names are made of, if their constants are disregarded. -/
def named (names : List String) : Material where
  Name name := name ∈ names ∧ name ∈ argumentNames
  Constant _ := True
  Count _ := True
  zero := trivial
  one := trivial
  euler := trivial
  count_one := trivial
  count_two := trivial
  ofNat _ := trivial

/-- What valid formulas are made of, as long as their numbers of operands are finite doubles. -/
def finite : Material where
  Name name := name ∈ argumentNames
  Constant value := value.isFinite = true
  Count n := n < Binary64.countLimit
  zero := by decide
  one := by decide
  euler := by decide
  count_one := Binary64.lt_countLimit (by decide)
  count_two := Binary64.lt_countLimit (by decide)
  ofNat := Binary64.isFinite_ofNat

end Material

namespace Formula

/-- No problem of an operation node is a matter of a constant. -/
theorem problem?_apply_fault? {symbol : String} {xs : List Formula} :
    (problem? Registry.standard (apply symbol xs)).bind Problem.fault? = none ↔
      problem? Registry.standard (apply symbol xs) = none := by
  rw [Option.bind_eq_none_iff, Option.eq_none_iff_forall_ne_some]
  refine forall_congr' fun p => imp_congr_right fun hp => iff_of_false ?_ not_false
  rw [Problem.fault?_eq_none_iff]
  rintro ⟨v, rfl⟩
  rw [problem?] at hp
  split at hp
  · cases hp
  · split at hp <;> cases hp

theorem isOf_finite_iff (node : Formula) : node.IsOf .finite ↔
    problem? Registry.standard node = none ∧ node.operands.length < Binary64.countLimit := by
  have hlimit : 0 < Binary64.countLimit := Binary64.lt_countLimit (by decide)
  cases node with
  | const value => simp [IsOf, Material.finite, problem?, operands, hlimit]
  | var name => simp [IsOf, Material.finite, problem?, operands, hlimit]
  | apply symbol xs =>
      rw [problem?_apply_eq_none_iff]
      exact and_comm

theorem isOf_named_iff (names : List String) (node : Formula) : node.IsOf (.named names) ↔
    (problem? Registry.standard node).bind Problem.fault? = none ∧
      ∀ name, node.name? = some name → name ∈ names := by
  cases node with
  | const value =>
      refine iff_of_true trivial ⟨?_, fun name h => by cases h⟩
      rw [problem?]
      split <;> rfl
  | var name =>
      by_cases hname : name ∈ argumentNames <;>
        simp [IsOf, Material.named, problem?, name?, hname, Problem.fault?]
  | apply symbol xs =>
      rw [problem?_apply_fault?, problem?_apply_eq_none_iff]
      simp [IsOf, Material.named, name?]

theorem problems_eq_nil_iff_nodes (t : Formula) : t.problems Registry.standard = [] ↔
    ∀ node ∈ t.nodes .depthFirst, problem? Registry.standard node = none :=
  List.filterMap_eq_nil_iff

/-- Made of finite constants and counts is what is valid and has no node with too many operands. -/
theorem madeOf_finite_iff (t : Formula) :
    t.MadeOf .finite ↔ t.problems Registry.standard = [] ∧
      ∀ node ∈ t.nodes .depthFirst, node.operands.length < Binary64.countLimit := by
  simp only [MadeOf, isOf_finite_iff, problems_eq_nil_iff_nodes, ← forall_and]

/-- Made of some names is what has no faults and no other names. -/
theorem madeOf_named_iff (names : List String) (t : Formula) :
    t.MadeOf (.named names) ↔ t.faults = [] ∧ ∀ name ∈ t.names, name ∈ names := by
  have hfaults : t.faults = [] ↔ ∀ node ∈ t.nodes .depthFirst,
      (problem? Registry.standard node).bind Problem.fault? = none := by
    rw [← List.length_eq_zero_iff, (faults_perm t).length_eq, List.length_eq_zero_iff, problems,
      List.filterMap_filterMap, List.filterMap_eq_nil_iff]
  have hnames : (∀ name ∈ t.names, name ∈ names) ↔
      ∀ node ∈ t.nodes .depthFirst, ∀ name, node.name? = some name → name ∈ names := by
    simp only [Formula.names, List.mem_filterMap]
    constructor
    · exact fun h node hnode name hname => h name ⟨node, hnode, hname⟩
    · rintro h name ⟨node, hnode, hname⟩
      exact h node hnode name hname
  simp only [MadeOf, isOf_named_iff, hfaults, hnames, ← forall_and]

/-- **Closure.** A formula has no derivative, by whatever name, exactly when some operation in it is
not registered or takes another number of operands. A valid formula can be differentiated by any
names in turn: what comes of it has no names that the formula has not, it has a value at any three
doubles, and it is valid. The last needs the numbers of operands to be finite doubles, which fails
only for lists far longer than any that can be held. -/
theorem derivatives_closed :
    (∀ (t : Formula) (v : String), (∃ fault, t.derivative v = .error fault) ↔
      ∃ symbol xs, apply symbol xs ∈ t.nodes .depthFirst ∧
        (Registry.standard.arity? symbol = none ∨
          ∃ n, Registry.standard.arity? symbol = some (.exactly n) ∧ xs.length ≠ n)) ∧
    ∀ (t : Formula) (vs : List String), t.problems Registry.standard = [] →
      ∃ u, t.derivatives vs = .ok u ∧
        ((∀ node ∈ t.nodes .depthFirst, node.operands.length < Binary64.countLimit) →
          u.problems Registry.standard = []) ∧
        (∀ name ∈ u.names, name ∈ t.names) ∧
        ∀ x y z, ∃ g, u.evaluateAt [.number x, .number y, .number z] = .ok g := by
  refine ⟨fun t v => derivative_eq_error_iff v t, fun t vs hvalid => ?_⟩
  have hnamed : t.MadeOf (.named t.names) :=
    (madeOf_named_iff _ t).mpr ⟨faults_eq_nil_of_problems hvalid, fun _ hname => hname⟩
  obtain ⟨u, hu, hmade⟩ := hnamed.derivatives vs
  obtain ⟨hfaults, hnames⟩ := (madeOf_named_iff _ u).mp hmade
  refine ⟨u, hu, fun hlimit => ?_, hnames, exists_evaluateAt hfaults⟩
  obtain ⟨w, hw, hfinite⟩ := ((madeOf_finite_iff t).mpr ⟨hvalid, hlimit⟩).derivatives vs
  obtain rfl : u = w := Except.ok.inj (hu.symm.trans hw)
  exact ((madeOf_finite_iff u).mp hfinite).1

/-- A variance differentiated by two of its names and then by one that it has not. -/
theorem derivatives_closed_variance :
    ∃ u, (apply "var" [var "x", apply "log" [const 2, var "y"]]).derivatives ["x", "y", "w"] =
        .ok u ∧
      u.problems Registry.standard = [] ∧
      (∀ name ∈ u.names, name ∈ (apply "var" [var "x", apply "log" [const 2, var "y"]]).names) ∧
      ∀ x y z, ∃ g, u.evaluateAt [.number x, .number y, .number z] = .ok g := by
  obtain ⟨u, hu, hvalid, hrest⟩ := derivatives_closed.2
    (apply "var" [var "x", apply "log" [const 2, var "y"]]) ["x", "y", "w"] (by decide +kernel)
  exact ⟨u, hu, hvalid (by decide +kernel), hrest⟩

end Formula
end Formulary
