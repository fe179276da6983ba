import Formulary.Proofs.Derivative.Polynomials
import Formulary.Proofs.Derivative.Readable
import Formulary.Proofs.Value.Exact
import Formulary.Proofs.Value.Expansion

/-!
# Rational functions and their derivatives

A rational function is built without powers and logarithms. The rules of differentiation
make rational functions of rational functions, and what they preserve holds of every one
with its derivative (`IsRationalFunction.exists_derivative`), where the variance may be
taken for its expansion.

The rules copy divisors and square them, and they divide by counts. So the derivative
divides by zero just where the function does (`IsRationalFunction.definedAt_derivative`).
-/

namespace Formulary

theorem Operation.symbol_injective : Function.Injective Operation.symbol := by
  intro o p h
  have hsome := congrArg Operation.ofSymbol? h
  rw [Operation.ofSymbol?_symbol, Operation.ofSymbol?_symbol] at hsome
  exact Option.some.inj hsome

namespace Formula

theorem op_inj {o p : Operation} {xs ys : List Formula} : op o xs = op p ys ↔ o = p ∧ xs = ys := by
  rw [op, op, apply.injEq, Operation.symbol_injective.eq_iff]

theorem forall_mem_pair {P : Formula → Prop} {x y : Formula} :
    (∀ z ∈ [x, y], P z) ↔ P x ∧ P y := by
  rw [List.forall_mem_cons, List.forall_mem_singleton]

/-- A formula that is built without powers and logarithms; `Count` tells the numbers of operands
that a mean or a variance may have. -/
inductive IsRationalFunction (Count : Nat → Prop) : Formula → Prop
  | const (c : Float) : IsRationalFunction Count (.const c)
  | var (name : String) : IsRationalFunction Count (.var name)
  | plus {x y : Formula} : IsRationalFunction Count x → IsRationalFunction Count y →
      IsRationalFunction Count (plus x y)
  | minus {x y : Formula} : IsRationalFunction Count x → IsRationalFunction Count y →
      IsRationalFunction Count (minus x y)
  | negate {x : Formula} : IsRationalFunction Count x → IsRationalFunction Count (negate x)
  | times {x y : Formula} : IsRationalFunction Count x → IsRationalFunction Count y →
      IsRationalFunction Count (times x y)
  | divide {x y : Formula} : IsRationalFunction Count x → IsRationalFunction Count y →
      IsRationalFunction Count (divide x y)
  | mean {xs : List Formula} : xs ≠ [] → Count xs.length →
      (∀ x ∈ xs, IsRationalFunction Count x) → IsRationalFunction Count (mean xs)
  | variance {xs : List Formula} : xs ≠ [] → Count xs.length →
      (∀ x ∈ xs, IsRationalFunction Count x) → IsRationalFunction Count (op .variance xs)

variable {Count : Nat → Prop}

/-- A formula without problems, powers and logarithms is a rational function. -/
theorem isRationalFunction_of_problems {t : Formula} (hvalid : t.problems Registry.standard = [])
    (hpower : "pow" ∉ t.symbols) (hlog : "log" ∉ t.symbols)
    (hcount : ∀ node ∈ t.nodes .depthFirst, Count node.operands.length) :
    t.IsRationalFunction Count := by
  induction t using operandsInduction with
  | const c => exact .const c
  | var name => exact .var name
  | apply symbol xs ih =>
      obtain ⟨⟨o, ho, hadmits⟩, hxs⟩ := operation_of_problems_eq_nil hvalid
      obtain ⟨hlength, hcounts⟩ := forall_nodes_iff.mp hcount
      obtain ⟨hnoPower, hnoPowers⟩ := not_or.mp (mt mem_symbols_apply.mpr hpower)
      obtain ⟨hnoLog, hnoLogs⟩ := not_or.mp (mt mem_symbols_apply.mpr hlog)
      have hoperands : ∀ x ∈ xs, x.IsRationalFunction Count := fun x hx =>
        ih x hx (hxs x hx) (fun h => hnoPowers ⟨x, hx, h⟩) (fun h => hnoLogs ⟨x, hx, h⟩)
          (hcounts x hx)
      have hpair : o.arity = .exactly 2 → ∃ x y, xs = [x, y] ∧
          x.IsRationalFunction Count ∧ y.IsRationalFunction Count := by
        intro harity
        rw [harity] at hadmits
        exact exists_pair (Arity.eq_of_admits hadmits) hoperands
      have hne : xs ≠ [] := mt List.length_eq_zero_iff.mpr (Arity.ne_zero_of_admits hadmits)
      obtain rfl := Operation.symbol_of_ofSymbol? ho
      cases o with
      | plus =>
          obtain ⟨x, y, rfl, hx, hy⟩ := hpair rfl
          exact .plus hx hy
      | minus =>
          obtain ⟨x, y, rfl, hx, hy⟩ := hpair rfl
          exact .minus hx hy
      | negate =>
          obtain ⟨x, rfl⟩ := List.length_eq_one_iff.mp (Arity.eq_of_admits hadmits)
          exact .negate (hoperands x List.mem_cons_self)
      | times =>
          obtain ⟨x, y, rfl, hx, hy⟩ := hpair rfl
          exact .times hx hy
      | divide =>
          obtain ⟨x, y, rfl, hx, hy⟩ := hpair rfl
          exact .divide hx hy
      | power => exact absurd rfl hnoPower
      | log => exact absurd rfl hnoLog
      | mean => exact .mean hne hlength hoperands
      | variance => exact .variance hne hlength hoperands

end Formula

/-! ## What the rules preserve -/

namespace Dual

open Formula

/-- The mean of the squares minus the square of the mean. -/
def varianceExpansion (xs : List Dual) : Dual := minus (mean (xs.map square)) (square (mean xs))

theorem varianceExpansion_formula (xs : List Dual) :
    (varianceExpansion xs).formula = Formula.varianceExpansion (xs.map formula) := by
  have hsquares : (xs.map square).map formula = (xs.map formula).map Formula.square := by
    rw [List.map_map, List.map_map]
    rfl
  rw [Formula.varianceExpansion, ← hsquares]
  rfl

/-- Whether the rules for rational functions preserve a property, when they are differentiated by a
name. -/
structure Preserved (Count : Nat → Prop) (v : String) (P : Dual → Prop) : Prop where
  const (c : Float) : P ⟨.const c, zero⟩
  var (name : String) : P ⟨.var name, if v = name then one else zero⟩
  plus {x y : Dual} : P x → P y → P (x.plus y)
  minus {x y : Dual} : P x → P y → P (x.minus y)
  negate {x : Dual} : P x → P x.negate
  times {x y : Dual} : P x → P y → P (x.times y)
  divide {x y : Dual} : P x → P y → P (x.divide y)
  mean {xs : List Dual} : xs ≠ [] → Count xs.length → (∀ x ∈ xs, P x) → P (mean xs)
  /-- what holds of the expansion holds of the variance -/
  variance {xs : List Dual} : xs ≠ [] → Count xs.length → (∀ x ∈ xs, P x) →
    P (varianceExpansion xs) → P (variance xs)

variable {Count : Nat → Prop} {v : String} {P : Dual → Prop}

theorem Preserved.varianceExpansion (h : Preserved Count v P) {xs : List Dual} (hne : xs ≠ [])
    (hcount : Count xs.length) (hxs : ∀ x ∈ xs, P x) : P (Dual.varianceExpansion xs) := by
  have hsquares : ∀ x ∈ xs.map square, P x :=
    List.forall_mem_map.mpr fun x hx => h.times (hxs x hx) (hxs x hx)
  have hmean : P (Dual.mean xs) := h.mean hne hcount hxs
  rw [← List.length_map (f := square)] at hcount
  exact h.minus (h.mean (mt List.map_eq_nil_iff.mp hne) hcount hsquares) (h.times hmean hmean)

end Dual

namespace Formula

variable {Count : Nat → Prop} {v : String} {P : Dual → Prop}

theorem exists_duals_ne_nil {xs : List Formula} (hne : xs ≠ [])
    (h : ∀ x ∈ xs, ∃ d, x.derivative v = .ok d ∧ P ⟨x, d⟩) :
    ∃ ds : List Dual, duals v xs = ds.map .ok ∧ ds.map Dual.formula = xs ∧ ds ≠ [] ∧
      ∀ d ∈ ds, P d := by
  obtain ⟨ds, hds, hall⟩ := exists_duals h
  obtain ⟨hformulas, -⟩ := derivative_of_duals hds
  refine ⟨ds, hds, hformulas, ?_, hall⟩
  rintro rfl
  exact hne hformulas.symm

/-- **Rules.** A rational function has a derivative, and the two have what the rules preserve. -/
theorem IsRationalFunction.exists_derivative (h : Dual.Preserved Count v P) {t : Formula}
    (ht : t.IsRationalFunction Count) : ∃ d, t.derivative v = .ok d ∧ P ⟨t, d⟩ := by
  induction ht with
  | const c => exact ⟨_, rfl, h.const c⟩
  | var name => exact ⟨_, rfl, h.var name⟩
  | plus _ _ ihx ihy =>
      obtain ⟨_, hdx, hx⟩ := ihx
      obtain ⟨_, hdy, hy⟩ := ihy
      exact ⟨_, derivative_op (duals_pair hdx hdy) rfl, h.plus hx hy⟩
  | minus _ _ ihx ihy =>
      obtain ⟨_, hdx, hx⟩ := ihx
      obtain ⟨_, hdy, hy⟩ := ihy
      exact ⟨_, derivative_op (duals_pair hdx hdy) rfl, h.minus hx hy⟩
  | negate _ ihx =>
      obtain ⟨_, hdx, hx⟩ := ihx
      exact ⟨_, derivative_op (duals_single hdx) rfl, h.negate hx⟩
  | times _ _ ihx ihy =>
      obtain ⟨_, hdx, hx⟩ := ihx
      obtain ⟨_, hdy, hy⟩ := ihy
      exact ⟨_, derivative_op (duals_pair hdx hdy) rfl, h.times hx hy⟩
  | divide _ _ ihx ihy =>
      obtain ⟨_, hdx, hx⟩ := ihx
      obtain ⟨_, hdy, hy⟩ := ihy
      exact ⟨_, derivative_op (duals_pair hdx hdy) rfl, h.divide hx hy⟩
  | mean hne hcount _ ih =>
      obtain ⟨ds, hds, rfl, hdne, hall⟩ := exists_duals_ne_nil hne ih
      rw [List.length_map] at hcount
      exact ⟨_, derivative_op hds rfl, h.mean hdne hcount hall⟩
  | variance hne hcount _ ih =>
      obtain ⟨ds, hds, rfl, hdne, hall⟩ := exists_duals_ne_nil hne ih
      rw [List.length_map] at hcount
      have hexpansion := h.varianceExpansion hdne hcount hall
      exact ⟨_, derivative_op hds rfl, h.variance hdne hcount hall hexpansion⟩

/-! ## Derivatives of rational functions -/

theorem isRationalFunction_preserved (v : String) : Dual.Preserved Count v fun x =>
    x.formula.IsRationalFunction Count ∧ x.slope.IsRationalFunction Count where
  const c := ⟨.const c, .const 0⟩
  var name := by
    refine ⟨.var name, ?_⟩
    show (if v = name then one else zero).IsRationalFunction Count
    split
    · exact .const 1
    · exact .const 0
  plus hx hy := ⟨.plus hx.1 hy.1, .plus hx.2 hy.2⟩
  minus hx hy := ⟨.minus hx.1 hy.1, .minus hx.2 hy.2⟩
  negate hx := ⟨.negate hx.1, .negate hx.2⟩
  times hx hy := ⟨.times hx.1 hy.1, .plus (.times hx.2 hy.1) (.times hx.1 hy.2)⟩
  divide hx hy := ⟨.divide hx.1 hy.1,
    .divide (.minus (.times hx.2 hy.1) (.times hx.1 hy.2)) (.times hy.1 hy.1)⟩
  mean hne hcount hxs := by
    have hmean := IsRationalFunction.mean (mt List.map_eq_nil_iff.mp hne)
      (by rwa [List.length_map]) (List.forall_mem_map.mpr fun x hx => (hxs x hx).1)
    have htotal := Dual.total_of_plus .plus (fun x hx => (hxs x hx).2) (.const 0)
    exact ⟨hmean, .divide htotal (.const _)⟩
  variance hne hcount hxs hexpansion := by
    have hvariance := IsRationalFunction.variance (mt List.map_eq_nil_iff.mp hne)
      (by rwa [List.length_map]) (List.forall_mem_map.mpr fun x hx => (hxs x hx).1)
    exact ⟨hvariance, hexpansion.2⟩

/-- **Closure.** The derivative of a rational function is one. -/
theorem IsRationalFunction.of_derivative {t d : Formula} (ht : t.IsRationalFunction Count)
    (hd : t.derivative v = .ok d) : d.IsRationalFunction Count := by
  obtain ⟨d', hd', -, hslope⟩ := ht.exists_derivative (isRationalFunction_preserved v)
  cases hd.symm.trans hd'
  exact hslope

/-! ## Where rational functions are defined -/

section

variable {point : String → ℚ} {x y : Formula}

/-- The divisors of a formula are those of its operands, and its own if it is a quotient; likewise
with the bases of powers. -/
theorem definedAt_iff {t : Formula} : t.DefinedAt point ↔
    ((∀ x y, t = divide x y → y.meaning .rat point ≠ .ok 0) ∧
      ∀ x c, t = power x (.const c) → (Binary64.parts c).intValue < 0 →
        x.meaning .rat point ≠ .ok 0) ∧
    ∀ x ∈ t.operands, x.DefinedAt point := by
  constructor
  · intro ht
    refine ⟨⟨?_, ?_⟩, fun x hx => ht.operand hx⟩
    · rintro x y rfl
      exact ht.divisor (self_mem_nodes _)
    · rintro x c rfl
      exact ht.base (self_mem_nodes _)
  · rintro ⟨⟨hdivisor, hbase⟩, hoperands⟩
    have hnodes : ∀ node ∈ t.nodes .depthFirst,
        (∀ x y, node = divide x y → y.meaning .rat point ≠ .ok 0) ∧
          ∀ x c, node = power x (.const c) → (Binary64.parts c).intValue < 0 →
            x.meaning .rat point ≠ .ok 0 := by
      refine forall_nodes_iff.mpr ⟨⟨hdivisor, hbase⟩, fun x hx node hnode => ⟨?_, ?_⟩⟩
      · rintro y z rfl
        exact (hoperands x hx).divisor hnode
      · rintro y c rfl
        exact (hoperands x hx).base hnode
    exact ⟨fun hnode => (hnodes _ hnode).1 _ _ rfl, fun hnode => (hnodes _ hnode).2 _ _ rfl⟩

theorem definedAt_leaf {t : Formula} (h : ∀ symbol xs, t ≠ .apply symbol xs) :
    t.DefinedAt point := by
  have hroot : ∀ {o : Operation} {xs : List Formula}, t ≠ op o xs := h _ _
  refine definedAt_iff.mpr
    ⟨⟨fun x y heq => absurd heq hroot, fun x c heq => absurd heq hroot⟩, ?_⟩
  cases t with
  | const c => exact List.forall_mem_nil _
  | var name => exact List.forall_mem_nil _
  | apply symbol xs => exact absurd rfl (h symbol xs)

theorem definedAt_const (c : Float) : (const c).DefinedAt point :=
  definedAt_leaf fun _ _ h => by cases h

theorem definedAt_var (name : String) : (var name).DefinedAt point :=
  definedAt_leaf fun _ _ h => by cases h

theorem definedAt_op {o : Operation} (hdivide : o ≠ .divide) (hpower : o ≠ .power)
    {xs : List Formula} : (op o xs).DefinedAt point ↔ ∀ x ∈ xs, x.DefinedAt point := by
  refine definedAt_iff.trans (and_iff_right ⟨fun x y heq => ?_, fun x c heq => ?_⟩)
  · exact absurd (op_inj.mp heq).1 hdivide
  · exact absurd (op_inj.mp heq).1 hpower

theorem definedAt_plus : (plus x y).DefinedAt point ↔ x.DefinedAt point ∧ y.DefinedAt point :=
  (definedAt_op (by decide) (by decide)).trans forall_mem_pair

theorem definedAt_minus : (minus x y).DefinedAt point ↔ x.DefinedAt point ∧ y.DefinedAt point :=
  (definedAt_op (by decide) (by decide)).trans forall_mem_pair

theorem definedAt_times : (times x y).DefinedAt point ↔ x.DefinedAt point ∧ y.DefinedAt point :=
  (definedAt_op (by decide) (by decide)).trans forall_mem_pair

theorem definedAt_negate : (negate x).DefinedAt point ↔ x.DefinedAt point :=
  (definedAt_op (by decide) (by decide)).trans List.forall_mem_singleton

theorem definedAt_mean {xs : List Formula} :
    (mean xs).DefinedAt point ↔ ∀ x ∈ xs, x.DefinedAt point :=
  definedAt_op (by decide) (by decide)

theorem definedAt_divide : (divide x y).DefinedAt point ↔
    y.meaning .rat point ≠ .ok 0 ∧ x.DefinedAt point ∧ y.DefinedAt point := by
  refine definedAt_iff.trans (and_congr ?_ forall_mem_pair)
  constructor
  · exact fun h => h.1 x y rfl
  · refine fun h => ⟨fun z w heq => ?_, fun z c heq => ?_⟩
    · cases (op_inj.mp heq).2
      exact h
    · exact absurd (op_inj.mp heq).1 (by decide)

/-- A variance is defined where its expansion is. -/
theorem definedAt_variance {xs : List Formula} :
    (op .variance xs).DefinedAt point ↔ (varianceExpansion xs).DefinedAt point := by
  have hsquares : (∀ x ∈ xs.map square, x.DefinedAt point) ↔ ∀ x ∈ xs, x.DefinedAt point := by
    rw [List.forall_mem_map]
    exact forall₂_congr fun x _ => definedAt_times.trans and_self_iff
  rw [definedAt_op (by decide) (by decide), varianceExpansion, definedAt_minus, square,
    definedAt_times, definedAt_mean, definedAt_mean, hsquares, and_self_iff, and_self_iff]

theorem definedAt_total {ds : List Dual} {start : Formula} :
    (ds.foldl (fun total d => Formula.plus total d.slope) start).DefinedAt point ↔
      start.DefinedAt point ∧ ∀ d ∈ ds, d.slope.DefinedAt point := by
  induction ds generalizing start with
  | nil => simp
  | cons d ds ih => rw [List.foldl_cons, ih, definedAt_plus, List.forall_mem_cons, and_assoc]

theorem meaning_square_eq_zero_iff :
    (square y).meaning .rat point = .ok 0 ↔ y.meaning .rat point = .ok 0 := by
  cases hy : y.meaning .rat point with
  | error fault =>
      rw [square, times, op, meaning, Operation.ofSymbol?_symbol, meanings, hy]
  | ok b =>
      rw [square, meaning_times hy hy, Except.ok.injEq, Except.ok.injEq]
      exact mul_self_eq_zero

/-- No count is zero, unless it is too large for a double. -/
theorem meaning_count_ne_zero {n : Nat} (hn : n ≠ 0) (hlimit : n < Binary64.countLimit) :
    (count n).meaning .rat point ≠ .ok 0 := by
  have hvalue : Arithmetic.rat.ofFloat (Binary64.ofNat n) =
      (Binary64.parts (Binary64.ofNat n)).toRat := if_pos (Binary64.isFinite_ofNat hlimit)
  rw [meaning_count, hvalue, ne_eq, Except.ok.injEq]
  exact Binary64.toRat_ofNat_ne_zero hn

/-- The rules keep all divisors, and they divide by nothing else that is zero. -/
theorem definedAt_preserved (point : String → ℚ) (v : String) :
    Dual.Preserved (· < Binary64.countLimit) v fun x =>
      (x.slope.DefinedAt point ↔ x.formula.DefinedAt point) where
  const c := iff_of_true (definedAt_const 0) (definedAt_const c)
  var name := by
    refine iff_of_true ?_ (definedAt_var name)
    show (if v = name then one else zero).DefinedAt point
    split
    · exact definedAt_const 1
    · exact definedAt_const 0
  plus {x y} hx hy := by
    show (plus x.slope y.slope).DefinedAt point ↔ (plus x.formula y.formula).DefinedAt point
    rw [definedAt_plus, definedAt_plus, hx, hy]
  minus {x y} hx hy := by
    show (minus x.slope y.slope).DefinedAt point ↔ (minus x.formula y.formula).DefinedAt point
    rw [definedAt_minus, definedAt_minus, hx, hy]
  negate {x} hx := by
    show (negate x.slope).DefinedAt point ↔ (negate x.formula).DefinedAt point
    rw [definedAt_negate, definedAt_negate, hx]
  times {x y} hx hy := by
    show (plus (times x.slope y.formula) (times x.formula y.slope)).DefinedAt point ↔
      (times x.formula y.formula).DefinedAt point
    simp only [definedAt_plus, definedAt_times, hx, hy, and_self_iff]
  divide {x y} hx hy := by
    show (divide (minus (times x.slope y.formula) (times x.formula y.slope))
      (square y.formula)).DefinedAt point ↔ (divide x.formula y.formula).DefinedAt point
    rw [definedAt_divide, definedAt_divide, ne_eq, meaning_square_eq_zero_iff, square]
    simp only [definedAt_minus, definedAt_times, hx, hy, and_self_iff, and_assoc]
  mean {xs} hne hlimit hxs := by
    show (divide _ (count xs.length)).DefinedAt point ↔ (mean (xs.map Dual.formula)).DefinedAt point
    have hcount : (count xs.length).meaning .rat point ≠ .ok 0 :=
      meaning_count_ne_zero (mt List.length_eq_zero_iff.mp hne) hlimit
    have hconst : (count xs.length).DefinedAt point := definedAt_const _
    have hzero : zero.DefinedAt point := definedAt_const 0
    rw [definedAt_divide, definedAt_total, definedAt_mean, List.forall_mem_map,
      and_iff_right hcount, and_iff_left hconst, and_iff_right hzero]
    exact forall₂_congr hxs
  variance {xs} _ _ _ hexpansion := by
    rw [Dual.varianceExpansion_formula, ← definedAt_variance] at hexpansion
    exact hexpansion

/-- **Definedness.** The derivative of a rational function divides by zero just where the function
does. -/
theorem IsRationalFunction.definedAt_derivative {t d : Formula}
    (ht : t.IsRationalFunction (· < Binary64.countLimit)) (hd : t.derivative v = .ok d)
    (point : String → ℚ) : d.DefinedAt point ↔ t.DefinedAt point := by
  obtain ⟨d', hd', hdefined⟩ := ht.exists_derivative (definedAt_preserved point v)
  cases hd.symm.trans hd'
  exact hdefined

end

end Formula
end Formulary
