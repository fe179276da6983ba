import Formulary.Proofs.Derivative.Closure
import Formulary.Proofs.Number.Predecessor
import Formulary.Proofs.Value.Scalar

/-!
# Polynomials and their derivatives

A polynomial is built without quotients and logarithms, and its exponents are positive
integers. The rules of differentiation make of it a formula that divides by nothing but
counts, but that takes the logarithm of the base of every power, since one rule serves
all exponents.

What is evaluated at a point is a value and a slope (`Jet`), and at each operation the
rule tells the jet of the result from the jets of the operands. So whatever the rules
preserve holds of the jet of every polynomial (`IsPolynomial.exists_jet`).
-/

namespace Formulary

open Binary64 (IsPositiveInteger)

namespace Formula

/-! ## Polynomials -/

inductive IsPolynomial : Formula → Prop
  | const {value : Float} : value.isFinite = true → IsPolynomial (.const value)
  | var {name : String} : name ∈ argumentNames → IsPolynomial (.var name)
  | plus {x y : Formula} : IsPolynomial x → IsPolynomial y → IsPolynomial (plus x y)
  | minus {x y : Formula} : IsPolynomial x → IsPolynomial y → IsPolynomial (minus x y)
  | negate {x : Formula} : IsPolynomial x → IsPolynomial (negate x)
  | times {x y : Formula} : IsPolynomial x → IsPolynomial y → IsPolynomial (times x y)
  | mean {xs : List Formula} : xs ≠ [] → (∀ x ∈ xs, IsPolynomial x) → IsPolynomial (mean xs)
  | variance {xs : List Formula} : xs ≠ [] → (∀ x ∈ xs, IsPolynomial x) →
      IsPolynomial (op .variance xs)
  | power {x : Formula} {n : Float} : IsPolynomial x → IsPositiveInteger n →
      IsPolynomial (power x (.const n))

theorem problems_op {o : Operation} {xs : List Formula} (hcount : o.arity.admits xs.length = true)
    (hxs : ∀ x ∈ xs, x.problems Registry.standard = []) :
    (op o xs).problems Registry.standard = [] :=
  (problems_eq_nil_iff _ _).mpr
    ⟨problem?_apply_eq_none_iff.mpr ⟨o, o.ofSymbol?_symbol, hcount⟩, hxs⟩

theorem problems_pair {o : Operation} {x y : Formula} (hcount : o.arity.admits 2 = true)
    (hx : x.problems Registry.standard = []) (hy : y.problems Registry.standard = []) :
    (op o [x, y]).problems Registry.standard = [] :=
  problems_op hcount (List.forall_mem_cons.mpr ⟨hx, List.forall_mem_singleton.mpr hy⟩)

theorem problems_const {value : Float} (h : value.isFinite = true) :
    (Formula.const value).problems Registry.standard = [] :=
  (problems_eq_nil_iff _ _).mpr ⟨by rw [problem?, if_pos h], List.forall_mem_nil _⟩

theorem admits_of_ne_nil {xs : List Formula} (hne : xs ≠ []) :
    Arity.variadic.admits xs.length = true := by
  cases xs with
  | nil => exact absurd rfl hne
  | cons x xs => rfl

/-- A polynomial has no problems. -/
theorem IsPolynomial.problems_eq_nil {t : Formula} (ht : t.IsPolynomial) :
    t.problems Registry.standard = [] := by
  induction ht with
  | const hfinite => exact problems_const hfinite
  | var hname =>
      refine (problems_eq_nil_iff _ _).mpr ⟨?_, List.forall_mem_nil _⟩
      rw [problem?, if_pos (List.contains_iff_mem.mpr hname)]
  | plus _ _ ihx ihy => exact problems_pair rfl ihx ihy
  | minus _ _ ihx ihy => exact problems_pair rfl ihx ihy
  | negate _ ihx => exact problems_op rfl (List.forall_mem_singleton.mpr ihx)
  | times _ _ ihx ihy => exact problems_pair rfl ihx ihy
  | mean hne _ ih => exact problems_op (admits_of_ne_nil hne) ih
  | variance hne _ ih => exact problems_op (admits_of_ne_nil hne) ih
  | power _ hn ihx => exact problems_pair rfl ihx (problems_const hn.isFinite)

theorem IsPolynomial.exists_derivative {t : Formula} (ht : t.IsPolynomial) (v : String) :
    ∃ d, t.derivative v = .ok d := by
  have hfaults := faults_eq_nil_of_problems ht.problems_eq_nil
  obtain ⟨d, hd, -⟩ := ((madeOf_named_iff t.names t).mpr ⟨hfaults, fun _ h => h⟩).derivative v
  exact ⟨d, hd⟩

/-- Whether the base of some power in a formula satisfies a condition. -/
def HasBase (Z : Formula → Prop) (t : Formula) : Prop :=
  ∃ base exponent, power base exponent ∈ t.nodes .depthFirst ∧ Z base

variable {Z : Formula → Prop}

theorem not_hasBase_iff {t : Formula} : ¬ HasBase Z t ↔
    ∀ node ∈ t.nodes .depthFirst, ∀ base exponent, node = power base exponent → ¬ Z base := by
  constructor
  · rintro h node hnode base exponent rfl hz
    exact h ⟨base, exponent, hnode, hz⟩
  · rintro h ⟨base, exponent, hnode, hz⟩
    exact h _ hnode base exponent rfl hz

/-- The powers of a formula are the powers of its operands, and the formula if it is a power. -/
theorem hasBase_iff {t : Formula} : HasBase Z t ↔
    (∃ base exponent, t = power base exponent ∧ Z base) ∨ ∃ x ∈ t.operands, HasBase Z x := by
  rw [← not_iff_not, not_hasBase_iff, forall_nodes_iff, not_or]
  simp only [← not_hasBase_iff, not_exists, not_and]

theorem hasBase_op {o : Operation} (ho : o ≠ .power) {xs : List Formula} :
    HasBase Z (op o xs) ↔ ∃ x ∈ xs, HasBase Z x := by
  refine hasBase_iff.trans (or_iff_right ?_)
  rintro ⟨base, exponent, heq, -⟩
  have hsymbol : o.symbol = Operation.power.symbol := (Formula.apply.inj heq).1
  have hsome := congrArg Operation.ofSymbol? hsymbol
  rw [Operation.ofSymbol?_symbol, Operation.ofSymbol?_symbol] at hsome
  exact ho (Option.some.inj hsome)

theorem hasBase_single {o : Operation} (ho : o ≠ .power) {x : Formula} :
    HasBase Z (op o [x]) ↔ HasBase Z x := by
  rw [hasBase_op ho, List.exists_mem_cons_iff]
  simp

theorem hasBase_pair {o : Operation} (ho : o ≠ .power) {x y : Formula} :
    HasBase Z (op o [x, y]) ↔ HasBase Z x ∨ HasBase Z y := by
  rw [hasBase_op ho, List.exists_mem_cons_iff]
  simp

theorem not_hasBase_leaf {t : Formula} (h : ∀ symbol xs, t ≠ .apply symbol xs) :
    ¬ HasBase Z t := by
  rw [hasBase_iff]
  rintro (⟨base, exponent, heq, -⟩ | ⟨x, hx, -⟩)
  · exact h _ _ heq
  · cases t with
    | const value => cases hx
    | var name => cases hx
    | apply symbol xs => exact h symbol xs rfl

theorem hasBase_power {x y : Formula} (hy : ¬ HasBase Z y) :
    HasBase Z (power x y) ↔ Z x ∨ HasBase Z x := by
  have hroot : (∃ base exponent, power x y = power base exponent ∧ Z base) ↔ Z x := by
    constructor
    · rintro ⟨base, exponent, heq, hz⟩
      cases heq
      exact hz
    · exact fun hz => ⟨x, y, rfl, hz⟩
  have hoperands : (∃ z ∈ [x, y], HasBase Z z) ↔ HasBase Z x := by simp [hy]
  exact hasBase_iff.trans (or_congr hroot hoperands)

/-- A formula has the derivative that the rule makes of its operands. -/
theorem derivative_op {v : String} {o : Operation} {xs : List Formula} {ds : List Dual} {d : Dual}
    (hds : duals v xs = ds.map .ok) (hd : o.dual? ds = some d) :
    (op o xs).derivative v = .ok d.slope :=
  derivative_apply_eq_ok_iff.mpr ⟨o, ds, d, o.ofSymbol?_symbol, hds, hd, rfl⟩

theorem duals_single {v : String} {x d : Formula} (hx : x.derivative v = .ok d) :
    duals v [x] = [Dual.mk x d].map .ok := by
  rw [duals, hx]
  rfl

theorem duals_pair {v : String} {x y d e : Formula} (hx : x.derivative v = .ok d)
    (hy : y.derivative v = .ok e) : duals v [x, y] = [Dual.mk x d, Dual.mk y e].map .ok := by
  rw [duals, hx, duals_single hy]
  rfl

end Formula

/-! ## Jets -/

/-- A value and a slope, and whether the base of some power was zero on the way to them. -/
structure Jet (α : Type) where
  singular : Prop
  value : α
  slope : α

namespace Jet

variable {α : Type} (A : Arithmetic α)

def const (x : Float) : Jet α := ⟨False, A.ofFloat x, A.ofFloat 0⟩

def plus (j k : Jet α) : Jet α :=
  ⟨j.singular ∨ k.singular, A.add j.value k.value, A.add j.slope k.slope⟩

def minus (j k : Jet α) : Jet α :=
  ⟨j.singular ∨ k.singular, A.sub j.value k.value, A.sub j.slope k.slope⟩

def negate (j : Jet α) : Jet α := ⟨j.singular, A.neg j.value, A.neg j.slope⟩

def times (j k : Jet α) : Jet α :=
  ⟨j.singular ∨ k.singular, A.mul j.value k.value,
    A.add (A.mul j.slope k.value) (A.mul j.value k.slope)⟩

def square (j : Jet α) : Jet α := j.times A j

/-- The slopes are added up in a row. -/
def mean (js : List (Jet α)) : Jet α :=
  ⟨∃ j ∈ js, j.singular, A.meanOf true (js.map value), A.meanOf false (js.map slope)⟩

def variance (js : List (Jet α)) : Jet α :=
  (mean A (js.map (square A))).minus A (square A (mean A js))

/-- A power whose exponent is a constant; `isZero` tells which bases are zero. The logarithm of the
base counts for nothing where it exists, since the exponent has the slope zero. -/
def power (isZero : α → Prop) (j : Jet α) (n : Float) : Jet α :=
  ⟨isZero j.value ∨ j.singular, A.powHeld j.value (A.ofFloat n),
    A.mul (A.powHeld j.value (A.sub (A.ofFloat n) (A.ofFloat 1)))
      (A.add (A.mul (A.ofFloat n) j.slope)
        (A.mul (A.mul j.value (A.ofFloat 0))
          (A.log (A.ofFloat Binary64.eulerNumber) j.value)))⟩

/-- Whether the rules preserve a property of jets. -/
structure Preserved (isZero : α → Prop) (Good : Jet α → Prop) : Prop where
  const {x : Float} : x.isFinite = true → Good (const A x)
  plus {j k : Jet α} : Good j → Good k → Good (j.plus A k)
  minus {j k : Jet α} : Good j → Good k → Good (j.minus A k)
  negate {j : Jet α} : Good j → Good (j.negate A)
  times {j k : Jet α} : Good j → Good k → Good (j.times A k)
  mean {js : List (Jet α)} : js ≠ [] → (∀ j ∈ js, Good j) → Good (mean A js)
  power {j : Jet α} {n : Float} : IsPositiveInteger n → Good j → Good (j.power A isZero n)

variable {A}

theorem variance_singular (js : List (Jet α)) :
    (variance A js).singular ↔ ∃ j ∈ js, j.singular := by
  have hsquares : (∃ j ∈ js.map (square A), j.singular) ↔ ∃ j ∈ js, j.singular := by
    simp [square, times]
  exact (or_congr hsquares or_self_iff).trans or_self_iff

/-- The variance has the jet of its expansion. -/
theorem Preserved.variance {isZero : α → Prop} {Good : Jet α → Prop}
    (h : Preserved A isZero Good) {js : List (Jet α)} (hne : js ≠ []) (hjs : ∀ j ∈ js, Good j) :
    Good (Jet.variance A js) := by
  refine h.minus (h.mean (by rwa [ne_eq, List.map_eq_nil_iff]) ?_)
    (h.times (h.mean hne hjs) (h.mean hne hjs))
  rw [List.forall_mem_map]
  exact fun j hj => h.times (hjs j hj) (hjs j hj)

end Jet

/-- A formula and its derivative have the value and the slope of a jet. -/
structure Dual.HasJet {α : Type} (A : Arithmetic α) (point : List α) (x : Dual) (j : Jet α) :
    Prop where
  value : x.formula.HasValue A point j.value
  slope : x.slope.HasValue A point j.slope

namespace Dual.HasJet

open Formula

variable {α : Type} {A : Arithmetic α} {point : List α} {x y : Dual} {j k : Jet α}

theorem plus (hx : x.HasJet A point j) (hy : y.HasJet A point k) :
    (x.plus y).HasJet A point (j.plus A k) where
  value := hasValue_plus hx.value hy.value
  slope := hasValue_plus hx.slope hy.slope

theorem minus (hx : x.HasJet A point j) (hy : y.HasJet A point k) :
    (x.minus y).HasJet A point (j.minus A k) where
  value := hasValue_minus hx.value hy.value
  slope := hasValue_minus hx.slope hy.slope

theorem negate (hx : x.HasJet A point j) : x.negate.HasJet A point (j.negate A) where
  value := hasValue_negate hx.value
  slope := hasValue_negate hx.slope

theorem times (hx : x.HasJet A point j) (hy : y.HasJet A point k) :
    (x.times y).HasJet A point (j.times A k) where
  value := hasValue_times hx.value hy.value
  slope := hasValue_plus (hasValue_times hx.slope hy.value) (hasValue_times hx.value hy.slope)

theorem power (isZero : α → Prop) (hx : x.HasJet A point j) (n : Float) :
    (x.power ⟨.const n, zero⟩).HasJet A point (j.power A isZero n) where
  value := hasValue_power hx.value (hasValue_const n)
  slope := by
    have hone : one.HasValue A point (A.ofFloat 1) := hasValue_const 1
    have hreduced := hasValue_minus (hasValue_const n) hone
    have hlog := hasValue_times (hasValue_times hx.value (hasValue_const 0))
      (hasValue_log (hasValue_const Binary64.eulerNumber) hx.value)
    exact hasValue_times (hasValue_power hx.value hreduced)
      (hasValue_plus (hasValue_times (hasValue_const n) hx.slope) hlog)

variable {xs : List Dual} {js : List (Jet α)}

/-- Slopes that are added up in a row. -/
theorem total (h : List.Forall₂ (HasJet A point) xs js) {start : Formula} {a : α}
    (hstart : start.HasValue A point a) :
    (xs.foldl (fun total x => Formula.plus total x.slope) start).HasValue A point
      (A.sumFrom a (js.map Jet.slope)) := by
  induction h generalizing start a with
  | nil => exact hstart
  | cons hx _ ih => exact ih (hasValue_plus hstart hx.slope)

theorem values (h : List.Forall₂ (HasJet A point) xs js) :
    List.Forall₂ (HasValue A point) (xs.map Dual.formula) (js.map Jet.value) := by
  rw [List.forall₂_map_left_iff, List.forall₂_map_right_iff]
  exact h.imp fun _ _ hx => hx.value

theorem mean (hA : A.RoundsCounts) (hne : js ≠ []) (h : List.Forall₂ (HasJet A point) xs js) :
    (Dual.mean xs).HasJet A point (Jet.mean A js) where
  value := hasValue_mean (by rwa [ne_eq, List.map_eq_nil_iff]) (values h)
  slope := by
    have hcount : (count xs.length).HasValue A point (A.ofNat (js.map Jet.slope).length) := by
      rw [List.length_map, ← h.length_eq, hA]
      exact hasValue_const _
    exact hasValue_divide (total h (hasValue_const 0)) hcount

theorem squares (h : List.Forall₂ (HasJet A point) xs js) :
    List.Forall₂ (HasJet A point) (xs.map Dual.square) (js.map (Jet.square A)) := by
  rw [List.forall₂_map_left_iff, List.forall₂_map_right_iff]
  exact h.imp fun _ _ hx => hx.times hx

theorem variance (hA : A.RoundsCounts) (hne : js ≠ [])
    (h : List.Forall₂ (HasJet A point) xs js) :
    (Dual.variance xs).HasJet A point (Jet.variance A js) := by
  have hexpansion := (mean hA (by rwa [ne_eq, List.map_eq_nil_iff]) (squares h)).minus
    ((mean hA hne h).times (mean hA hne h))
  refine ⟨?_, hexpansion.slope⟩
  have hsquares : (js.map (Jet.square A)).map Jet.value = (js.map Jet.value).map A.square := by
    rw [List.map_map, List.map_map]
    rfl
  have hvalue := hasValue_variance (by rwa [ne_eq, List.map_eq_nil_iff]) (values h)
  rw [Arithmetic.varianceOf, ← hsquares] at hvalue
  exact hvalue

end Dual.HasJet

/-! ## The jet of a polynomial -/

namespace Formula

variable {α : Type} {A : Arithmetic α} {point : List α} {isZero : α → Prop} {Good : Jet α → Prop}
  {Z : Formula → Prop}

/-- A formula with its derivative has a jet with a property, which is singular just when the base of
some power is zero. -/
def Tracked (A : Arithmetic α) (point : List α) (Good : Jet α → Prop) (Z : Formula → Prop)
    (x : Dual) : Prop :=
  ∃ j : Jet α, x.HasJet A point j ∧ Good j ∧ (j.singular ↔ HasBase Z x.formula)

theorem exists_jets {ds : List Dual} (h : ∀ d ∈ ds, Tracked A point Good Z d) :
    ∃ js, List.Forall₂ (Dual.HasJet A point) ds js ∧ (∀ j ∈ js, Good j) ∧
      ((∃ j ∈ js, j.singular) ↔ ∃ x ∈ ds.map Dual.formula, HasBase Z x) := by
  induction ds with
  | nil => exact ⟨[], .nil, List.forall_mem_nil _, by simp⟩
  | cons d ds ih =>
      obtain ⟨⟨j, hj, hgood, hsingular⟩, hds⟩ := List.forall_mem_cons.mp h
      obtain ⟨js, hjs, hgoods, hsingulars⟩ := ih hds
      refine ⟨j :: js, .cons hj hjs, List.forall_mem_cons.mpr ⟨hgood, hgoods⟩, ?_⟩
      rw [List.map_cons, List.exists_mem_cons_iff, List.exists_mem_cons_iff, hsingular, hsingulars]

/-- The operands of a mean or a variance, with their slopes and their jets. -/
theorem exists_operands {v : String} {xs : List Formula} (hne : xs ≠ [])
    (h : ∀ x ∈ xs, ∃ d, x.derivative v = .ok d ∧ Tracked A point Good Z ⟨x, d⟩) :
    ∃ ds js, duals v xs = ds.map .ok ∧ ds.map Dual.formula = xs ∧ js ≠ [] ∧
      List.Forall₂ (Dual.HasJet A point) ds js ∧ (∀ j ∈ js, Good j) ∧
      ((∃ j ∈ js, j.singular) ↔ ∃ x ∈ xs, HasBase Z x) := by
  obtain ⟨ds, hds, htracked⟩ := exists_duals h
  obtain ⟨js, hjs, hgood, hsingular⟩ := exists_jets htracked
  obtain ⟨hformulas, -⟩ := derivative_of_duals hds
  refine ⟨ds, js, hds, hformulas, ?_, hjs, hgood, hformulas ▸ hsingular⟩
  rintro rfl
  have hlength := hjs.length_eq
  rw [length_of_duals hds] at hlength
  exact hne (List.length_eq_zero_iff.mp hlength)

/-- **Jets.** What the rules preserve holds of the jet of every polynomial, and the jet is singular
just when the base of some power is zero. -/
theorem IsPolynomial.exists_jet (hA : A.RoundsCounts) (point : List α)
    (hgood : Jet.Preserved A isZero Good)
    (hZ : ∀ x a, HasValue A point x a → (Z x ↔ isZero a)) {v : String}
    (hpoint : ∀ name ∈ argumentNames, ∃ a, HasValue A point (.var name) a ∧
      Good ⟨False, a, A.ofFloat (if v = name then 1 else 0)⟩) {t : Formula}
    (ht : t.IsPolynomial) : ∃ d, t.derivative v = .ok d ∧ Tracked A point Good Z ⟨t, d⟩ := by
  have hleaf : ∀ {t : Formula}, (∀ symbol xs, t ≠ .apply symbol xs) → (False ↔ HasBase Z t) :=
    fun h => iff_of_false id (not_hasBase_leaf h)
  induction ht with
  | @const value hfinite =>
      have hno : ∀ symbol xs, Formula.const value ≠ .apply symbol xs := fun _ _ h => by cases h
      exact ⟨_, rfl, Jet.const A value, ⟨rfl, rfl⟩, hgood.const hfinite, hleaf hno⟩
  | @var name hname =>
      have hno : ∀ symbol xs, Formula.var name ≠ .apply symbol xs := fun _ _ h => by cases h
      obtain ⟨a, ha, hjet⟩ := hpoint name hname
      refine ⟨_, rfl, _, ⟨ha, ?_⟩, hjet, hleaf hno⟩
      by_cases hv : v = name
      · rw [if_pos hv, if_pos hv]
        rfl
      · rw [if_neg hv, if_neg hv]
        rfl
  | plus _ _ ihx ihy =>
      obtain ⟨_, hdx, j, hj, hjgood, hjsingular⟩ := ihx
      obtain ⟨_, hdy, k, hk, hkgood, hksingular⟩ := ihy
      refine ⟨_, derivative_op (duals_pair hdx hdy) rfl, _, hj.plus hk, hgood.plus hjgood hkgood,
        ?_⟩
      exact (or_congr hjsingular hksingular).trans (hasBase_pair (by decide)).symm
  | minus _ _ ihx ihy =>
      obtain ⟨_, hdx, j, hj, hjgood, hjsingular⟩ := ihx
      obtain ⟨_, hdy, k, hk, hkgood, hksingular⟩ := ihy
      refine ⟨_, derivative_op (duals_pair hdx hdy) rfl, _, hj.minus hk, hgood.minus hjgood hkgood,
        ?_⟩
      exact (or_congr hjsingular hksingular).trans (hasBase_pair (by decide)).symm
  | negate _ ihx =>
      obtain ⟨_, hdx, j, hj, hjgood, hjsingular⟩ := ihx
      refine ⟨_, derivative_op (duals_single hdx) rfl, _, hj.negate, hgood.negate hjgood, ?_⟩
      exact hjsingular.trans (hasBase_single (by decide)).symm
  | times _ _ ihx ihy =>
      obtain ⟨_, hdx, j, hj, hjgood, hjsingular⟩ := ihx
      obtain ⟨_, hdy, k, hk, hkgood, hksingular⟩ := ihy
      refine ⟨_, derivative_op (duals_pair hdx hdy) rfl, _, hj.times hk, hgood.times hjgood hkgood,
        ?_⟩
      exact (or_congr hjsingular hksingular).trans (hasBase_pair (by decide)).symm
  | mean hne _ ih =>
      obtain ⟨ds, js, hds, hformulas, hjne, hjs, hjsgood, hsingular⟩ := exists_operands hne ih
      have hjet := Dual.HasJet.mean hA hjne hjs
      refine ⟨_, derivative_op hds rfl, Jet.mean A js, ⟨hformulas ▸ hjet.value, hjet.slope⟩,
        hgood.mean hjne hjsgood, ?_⟩
      exact hsingular.trans (hasBase_op (by decide)).symm
  | variance hne _ ih =>
      obtain ⟨ds, js, hds, hformulas, hjne, hjs, hjsgood, hsingular⟩ := exists_operands hne ih
      have hjet := Dual.HasJet.variance hA hjne hjs
      refine ⟨_, derivative_op hds rfl, Jet.variance A js, ⟨hformulas ▸ hjet.value, hjet.slope⟩,
        hgood.variance hjne hjsgood, ?_⟩
      exact (Jet.variance_singular js).trans (hsingular.trans (hasBase_op (by decide)).symm)
  | @power x n _ hn ihx =>
      obtain ⟨_, hdx, j, hj, hjgood, hjsingular⟩ := ihx
      have hno : ∀ symbol xs, Formula.const n ≠ .apply symbol xs := fun _ _ h => by cases h
      refine ⟨_, derivative_op (duals_pair hdx rfl) rfl, _, hj.power isZero n,
        hgood.power hn hjgood, ?_⟩
      rw [hasBase_power (not_hasBase_leaf hno), ← hjsingular, hZ x _ hj.value]
      rfl

end Formula
end Formulary
