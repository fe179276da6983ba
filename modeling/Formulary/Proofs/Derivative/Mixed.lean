import Formulary.Proofs.Derivative.RationalFunctions

/-!
# Mixed derivatives

To differentiate by one name and then by another means the same in either order, though
the two formulas are built differently. At a point a rational function has a value, a rate
by each of the two names, and the rate of the first rate by the second name (`Rates`). At
each operation the rules of differentiation tell these four numbers from those of the
operands, and to exchange the names exchanges the two rates and nothing else: that is
the algebra of each rule by itself (`Rates.swap_divide` and its like), and a formula
inherits it from its operands (`commutes_preserved`).
-/

namespace Formulary

/-! ## Rates -/

/-- A value, its rates by two names, and the rate of the first rate by the second name. -/
@[ext]
structure Rates where
  value : ℚ
  first : ℚ
  second : ℚ
  mixed : ℚ

namespace Rates

def plus (a b : Rates) : Rates :=
  ⟨a.value + b.value, a.first + b.first, a.second + b.second, a.mixed + b.mixed⟩

def minus (a b : Rates) : Rates :=
  ⟨a.value - b.value, a.first - b.first, a.second - b.second, a.mixed - b.mixed⟩

def negate (a : Rates) : Rates := ⟨-a.value, -a.first, -a.second, -a.mixed⟩

def times (a b : Rates) : Rates :=
  ⟨a.value * b.value, a.first * b.value + a.value * b.first,
    a.second * b.value + a.value * b.second,
    a.mixed * b.value + a.first * b.second + (a.second * b.first + a.value * b.mixed)⟩

/-- The rates are quotients by the square of the divisor, and the rate of one of these is a quotient
by its fourth power. -/
def divide (a b : Rates) : Rates :=
  ⟨a.value / b.value, (a.first * b.value - a.value * b.first) / (b.value * b.value),
    (a.second * b.value - a.value * b.second) / (b.value * b.value),
    ((a.mixed * b.value + a.first * b.second - (a.second * b.first + a.value * b.mixed)) *
        (b.value * b.value) -
      (a.first * b.value - a.value * b.first) * (b.second * b.value + b.value * b.second)) /
      (b.value * b.value * (b.value * b.value))⟩

/-- The rates are divided by the double that is the count, whose rate is zero. -/
def mean (as : List Rates) : Rates :=
  let n : ℚ := Arithmetic.rat.ofFloat (Binary64.ofNat as.length)
  ⟨(as.map value).sum / as.length, (as.map first).sum / n, (as.map second).sum / n,
    ((as.map mixed).sum * n - (as.map first).sum * 0) / (n * n)⟩

theorem sum_pairs (as : List Rates) : (as.map fun a => (a.first, a.mixed)).sum =
    ((as.map first).sum, (as.map mixed).sum) := by
  induction as with
  | nil => rfl
  | cons a as ih =>
      simp only [List.map_cons, List.sum_cons, ih]
      rfl

/-- The rates when the names are exchanged. -/
def swap (a : Rates) : Rates := ⟨a.value, a.second, a.first, a.mixed⟩

theorem swap_plus (a b : Rates) : (a.plus b).swap = a.swap.plus b.swap := rfl

theorem swap_minus (a b : Rates) : (a.minus b).swap = a.swap.minus b.swap := rfl

theorem swap_negate (a : Rates) : a.negate.swap = a.swap.negate := rfl

theorem swap_times (a b : Rates) : (a.times b).swap = a.swap.times b.swap := by
  ext
  · rfl
  · rfl
  · rfl
  · simp only [swap, times]
    ring

theorem swap_divide (a b : Rates) : (a.divide b).swap = a.swap.divide b.swap := by
  ext
  · rfl
  · rfl
  · rfl
  · simp only [swap, divide]
    ring

theorem swap_mean (as : List Rates) : (mean as).swap = mean (as.map swap) := by
  simp only [mean, swap, List.map_map, List.length_map, mul_zero, sub_zero]
  rfl

end Rates

/-! ## Formulas with rates -/

namespace Formula

/-- A formula means the first number at a point, and its derivative by a name means the second. -/
structure HasRate (point : String → ℚ) (w : String) (x : Formula) (a : ℚ × ℚ) : Prop where
  value : x.meaning .rat point = .ok a.1
  rate : ∃ d, x.derivative w = .ok d ∧ d.meaning .rat point = .ok a.2

/-- The rate of a name. -/
def nameRate (w name : String) : ℚ := Arithmetic.rat.ofFloat (if w = name then 1 else 0)

variable {point : String → ℚ} {v w : String} {x y : Formula} {a b : ℚ × ℚ}

theorem meaning_zero_rat : zero.meaning .rat point = .ok 0 := by
  rw [meaning_zero, Arithmetic.ofFloat_rat_of_mantissa_eq_zero (by decide) Binary64.mantissa_zero]

theorem hasRate_const {c : Float} {q : ℚ} (h : (const c).meaning .rat point = .ok q) :
    (const c).HasRate point w (q, 0) := ⟨h, zero, rfl, meaning_zero_rat⟩

theorem hasRate_zero : zero.HasRate point w 0 := hasRate_const meaning_zero_rat

/-- The derivative of a name is a constant. -/
theorem hasRate_slope (name : String) :
    (if v = name then one else zero).HasRate point w (nameRate v name, 0) := by
  rw [nameRate]
  split
  · exact hasRate_const meaning_one
  · exact hasRate_const meaning_zero

theorem hasRate_var (name : String) :
    (var name).HasRate point w (point name, nameRate w name) :=
  ⟨rfl, _, rfl, (hasRate_slope (w := w) name).value⟩

section

variable (hx : x.HasRate point w a)
include hx

theorem hasRate_negate : (negate x).HasRate point w (-a) where
  value := meaning_negate hx.value
  rate := by
    obtain ⟨d, hd, hslope⟩ := hx.rate
    exact ⟨_, derivative_op (duals_single hd) rfl, meaning_negate hslope⟩

variable (hy : y.HasRate point w b)
include hy

theorem hasRate_plus : (plus x y).HasRate point w (a + b) where
  value := meaning_plus hx.value hy.value
  rate := by
    obtain ⟨d, hd, hdx⟩ := hx.rate
    obtain ⟨e, he, hey⟩ := hy.rate
    exact ⟨_, derivative_op (duals_pair hd he) rfl, meaning_plus hdx hey⟩

theorem hasRate_minus : (minus x y).HasRate point w (a - b) where
  value := meaning_minus hx.value hy.value
  rate := by
    obtain ⟨d, hd, hdx⟩ := hx.rate
    obtain ⟨e, he, hey⟩ := hy.rate
    exact ⟨_, derivative_op (duals_pair hd he) rfl, meaning_minus hdx hey⟩

theorem hasRate_times :
    (times x y).HasRate point w (a.1 * b.1, a.2 * b.1 + a.1 * b.2) where
  value := meaning_times hx.value hy.value
  rate := by
    obtain ⟨d, hd, hdx⟩ := hx.rate
    obtain ⟨e, he, hey⟩ := hy.rate
    exact ⟨_, derivative_op (duals_pair hd he) rfl,
      meaning_plus (meaning_times hdx hy.value) (meaning_times hx.value hey)⟩

theorem hasRate_divide :
    (divide x y).HasRate point w (a.1 / b.1, (a.2 * b.1 - a.1 * b.2) / (b.1 * b.1)) where
  value := meaning_divide hx.value hy.value
  rate := by
    obtain ⟨d, hd, hdx⟩ := hx.rate
    obtain ⟨e, he, hey⟩ := hy.rate
    have hnumerator := meaning_minus (meaning_times hdx hy.value) (meaning_times hx.value hey)
    exact ⟨_, derivative_op (duals_pair hd he) rfl,
      meaning_divide hnumerator (meaning_times hy.value hy.value)⟩

end

/-- Slopes that are added up in a row, whatever sums have in common with their terms. -/
theorem total_related {β : Type} [AddMonoid β] {R : Formula → β → Prop}
    (hplus : ∀ {x y : Formula} {a b : β}, R x a → R y b → R (plus x y) (a + b)) {ds : List Dual}
    {bs : List β} (h : List.Forall₂ (fun d b => R d.slope b) ds bs) {start : Formula} {a : β}
    (hstart : R start a) :
    R (ds.foldl (fun total d => plus total d.slope) start) (a + bs.sum) := by
  induction h generalizing start a with
  | nil => rwa [List.sum_nil, add_zero]
  | cons hd _ ih =>
      rw [List.sum_cons, ← add_assoc]
      exact ih (hplus hstart hd)

theorem meanings_of_hasRate {xs : List Formula} {as : List (ℚ × ℚ)}
    (h : List.Forall₂ (HasRate point w) xs as) :
    meanings .rat point xs = .ok (as.map Prod.fst) :=
  meanings_eq_ok_iff.mpr (List.forall₂_map_right_iff.mpr (h.imp fun _ _ hx => hx.value))

/-- The operands of a mean, with their slopes and what those mean. -/
theorem exists_slopes {xs : List Formula} {as : List (ℚ × ℚ)}
    (h : List.Forall₂ (HasRate point w) xs as) :
    ∃ ds, duals w xs = ds.map .ok ∧
      List.Forall₂ (fun d q => d.slope.meaning .rat point = .ok q) ds (as.map Prod.snd) := by
  induction h with
  | nil => exact ⟨[], rfl, .nil⟩
  | @cons x a _ _ hx _ ih =>
      obtain ⟨d, hd, hslope⟩ := hx.rate
      obtain ⟨ds, hds, hslopes⟩ := ih
      refine ⟨⟨x, d⟩ :: ds, ?_, .cons hslope hslopes⟩
      rw [duals, hd, hds]
      rfl

theorem hasRate_mean {xs : List Formula} {as : List (ℚ × ℚ)}
    (h : List.Forall₂ (HasRate point w) xs as) :
    (mean xs).HasRate point w ((as.map Prod.fst).sum / as.length,
      (as.map Prod.snd).sum / Arithmetic.rat.ofFloat (Binary64.ofNat as.length)) where
  value := by
    rw [meaning_mean (meanings_of_hasRate h), Arithmetic.average_rat, List.length_map]
  rate := by
    obtain ⟨ds, hds, hslopes⟩ := exists_slopes h
    have htotal := total_related (R := fun x q => x.meaning .rat point = .ok q)
      (fun hx hy => meaning_plus hx hy) hslopes meaning_zero_rat
    rw [zero_add] at htotal
    have hlength : ds.length = as.length := (length_of_duals hds).trans h.length_eq
    exact ⟨_, derivative_op hds rfl, hlength ▸ meaning_divide htotal (meaning_count ds.length)⟩

end Formula

namespace Dual

open Formula

/-- A formula and its derivative by one name, with their derivatives by another, mean these
numbers. -/
structure HasRates (point : String → ℚ) (w : String) (x : Dual) (a : Rates) : Prop where
  formula : x.formula.HasRate point w (a.value, a.second)
  slope : x.slope.HasRate point w (a.first, a.mixed)

variable {point : String → ℚ} {v w : String} {x y : Dual} {a b : Rates}

section

variable (hx : x.HasRates point w a)
include hx

theorem HasRates.negate : x.negate.HasRates point w a.negate where
  formula := hasRate_negate hx.formula
  slope := hasRate_negate hx.slope

variable (hy : y.HasRates point w b)
include hy

theorem HasRates.plus : (x.plus y).HasRates point w (a.plus b) where
  formula := hasRate_plus hx.formula hy.formula
  slope := hasRate_plus hx.slope hy.slope

theorem HasRates.minus : (x.minus y).HasRates point w (a.minus b) where
  formula := hasRate_minus hx.formula hy.formula
  slope := hasRate_minus hx.slope hy.slope

theorem HasRates.times : (x.times y).HasRates point w (a.times b) where
  formula := hasRate_times hx.formula hy.formula
  slope := hasRate_plus (hasRate_times hx.slope hy.formula) (hasRate_times hx.formula hy.slope)

theorem HasRates.divide : (x.divide y).HasRates point w (a.divide b) where
  formula := hasRate_divide hx.formula hy.formula
  slope := by
    have hnumerator := hasRate_minus (hasRate_times hx.slope hy.formula)
      (hasRate_times hx.formula hy.slope)
    exact hasRate_divide hnumerator (hasRate_times hy.formula hy.formula)

end

theorem HasRates.mean {xs : List Dual} {as : List Rates}
    (h : List.Forall₂ (HasRates point w) xs as) :
    (Dual.mean xs).HasRates point w (Rates.mean as) where
  formula := by
    have hformulas : List.Forall₂ (HasRate point w) (xs.map Dual.formula)
        (as.map fun a => (a.value, a.second)) := by
      rw [List.forall₂_map_left_iff, List.forall₂_map_right_iff]
      exact h.imp fun _ _ hx => hx.formula
    have hmean := hasRate_mean hformulas
    rw [List.map_map, List.map_map, List.length_map] at hmean
    exact hmean
  slope := by
    have hslopes : List.Forall₂ (fun x a => x.slope.HasRate point w a) xs
        (as.map fun a => (a.first, a.mixed)) := by
      rw [List.forall₂_map_right_iff]
      exact h.imp fun _ _ hx => hx.slope
    have htotal := total_related (R := HasRate point w) hasRate_plus hslopes hasRate_zero
    rw [zero_add, Rates.sum_pairs] at htotal
    have hcount : (count xs.length).HasRate point w
        (Arithmetic.rat.ofFloat (Binary64.ofNat as.length), 0) :=
      h.length_eq ▸ hasRate_const (meaning_count xs.length)
    exact hasRate_divide htotal hcount

end Dual

/-! ## Both orders -/

namespace Formula

variable {point : String → ℚ} {v w : String}

/-- The variance has the rate of its expansion. -/
theorem hasRate_variance {xs : List Formula} {a : ℚ × ℚ}
    (h : (varianceExpansion xs).HasRate point w a) : (op .variance xs).HasRate point w a where
  value := (meaning_variance point xs).trans h.value
  rate := by
    obtain ⟨d, hd, hslope⟩ := h.rate
    exact ⟨d, (derivative_variance w xs).trans hd, hslope⟩

/-- A formula with its derivative by one name has rates by that name and another, and with its
derivative by the other name it has the same rates, exchanged. -/
def Commutes (point : String → ℚ) (w v : String) (x : Dual) : Prop :=
  ∃ a, x.HasRates point w a ∧
    ∃ d, x.formula.derivative w = .ok d ∧ Dual.HasRates point v ⟨x.formula, d⟩ a.swap

theorem exists_commuting {xs : List Dual} (h : ∀ x ∈ xs, Commutes point w v x) :
    ∃ as ds, List.Forall₂ (Dual.HasRates point w) xs as ∧
      duals w (xs.map Dual.formula) = ds.map .ok ∧ ds.map Dual.formula = xs.map Dual.formula ∧
      List.Forall₂ (Dual.HasRates point v) ds (as.map Rates.swap) := by
  induction xs with
  | nil => exact ⟨[], [], .nil, rfl, rfl, .nil⟩
  | cons x xs ih =>
      obtain ⟨⟨a, hx, d, hd, hdx⟩, hxs⟩ := List.forall_mem_cons.mp h
      obtain ⟨as, ds, has, hds, hformulas, hswapped⟩ := ih hxs
      refine ⟨a :: as, ⟨x.formula, d⟩ :: ds, .cons hx has, ?_, ?_, .cons hdx hswapped⟩
      · rw [List.map_cons, duals, hd, hds]
        rfl
      · rw [List.map_cons, List.map_cons, hformulas]

/-- Every rule treats both names alike. -/
theorem commutes_preserved (point : String → ℚ) (v w : String) :
    Dual.Preserved (fun _ => True) v (Commutes point w v) where
  const c := by
    obtain ⟨q, hq⟩ : ∃ q, (Formula.const c).meaning .rat point = .ok q := ⟨_, rfl⟩
    have hrates : ∀ w, Dual.HasRates point w ⟨.const c, zero⟩ ⟨q, 0, 0, 0⟩ := fun w =>
      ⟨hasRate_const hq, hasRate_zero⟩
    exact ⟨_, hrates w, zero, rfl, hrates v⟩
  var name := ⟨⟨point name, nameRate v name, nameRate w name, 0⟩,
    ⟨hasRate_var name, hasRate_slope name⟩, _, rfl, hasRate_var name, hasRate_slope name⟩
  plus := by
    rintro x y ⟨a, hx, d, hd, hdx⟩ ⟨b, hy, e, he, hey⟩
    refine ⟨a.plus b, hx.plus hy, _, derivative_op (duals_pair hd he) rfl, ?_⟩
    rw [Rates.swap_plus]
    exact hdx.plus hey
  minus := by
    rintro x y ⟨a, hx, d, hd, hdx⟩ ⟨b, hy, e, he, hey⟩
    refine ⟨a.minus b, hx.minus hy, _, derivative_op (duals_pair hd he) rfl, ?_⟩
    rw [Rates.swap_minus]
    exact hdx.minus hey
  negate := by
    rintro x ⟨a, hx, d, hd, hdx⟩
    refine ⟨a.negate, hx.negate, _, derivative_op (duals_single hd) rfl, ?_⟩
    rw [Rates.swap_negate]
    exact hdx.negate
  times := by
    rintro x y ⟨a, hx, d, hd, hdx⟩ ⟨b, hy, e, he, hey⟩
    refine ⟨a.times b, hx.times hy, _, derivative_op (duals_pair hd he) rfl, ?_⟩
    rw [Rates.swap_times]
    exact hdx.times hey
  divide := by
    rintro x y ⟨a, hx, d, hd, hdx⟩ ⟨b, hy, e, he, hey⟩
    refine ⟨a.divide b, hx.divide hy, _, derivative_op (duals_pair hd he) rfl, ?_⟩
    rw [Rates.swap_divide]
    exact hdx.divide hey
  mean := by
    intro xs _ _ hxs
    obtain ⟨as, ds, has, hds, hformulas, hswapped⟩ := exists_commuting hxs
    refine ⟨.mean as, .mean has, _, derivative_op hds rfl, ?_⟩
    rw [Rates.swap_mean]
    have hmean := Dual.HasRates.mean hswapped
    rw [Dual.mean, hformulas] at hmean
    exact hmean
  variance := by
    rintro xs _ _ - ⟨a, hx, d, hd, hdx⟩
    rw [Dual.varianceExpansion_formula] at hd hdx
    have hformula := hx.formula
    rw [Dual.varianceExpansion_formula] at hformula
    exact ⟨a, ⟨hasRate_variance hformula, hx.slope⟩, d, (derivative_variance w _).trans hd,
      hasRate_variance hdx.formula, hdx.slope⟩

/-- **Both orders.** The second derivatives of a rational function mean the same. -/
theorem IsRationalFunction.exists_mixed {t : Formula} (ht : t.IsRationalFunction fun _ => True)
    (v w : String) (point : String → ℚ) :
    ∃ dv dw dvw dwv q, t.derivative v = .ok dv ∧ t.derivative w = .ok dw ∧
      dv.derivative w = .ok dvw ∧ dw.derivative v = .ok dwv ∧
      dvw.meaning .rat point = .ok q ∧ dwv.meaning .rat point = .ok q := by
  obtain ⟨dv, hdv, a, hv, dw, hdw, hw⟩ := ht.exists_derivative (commutes_preserved point v w)
  obtain ⟨dvw, hdvw, hvw⟩ := hv.slope.rate
  obtain ⟨dwv, hdwv, hwv⟩ := hw.slope.rate
  exact ⟨dv, dw, dvw, dwv, a.mixed, hdv, hdw, hdvw, hdwv, hvw, hwv⟩

/-- **Mixed derivatives.** A formula without problems that has no operations but sums, differences,
negations, products, quotients, means and variances can be differentiated by any two names in either
order. At a point of rationals both second derivatives have the same value. The first derivative
and both second ones divide by zero there just if the formula does, so none of them has a
singularity of its own. The last needs the numbers of operands to be finite doubles, which fails
only for lists far longer than any that can be held. -/
theorem mixed_derivatives {t : Formula} (hvalid : t.problems Registry.standard = [])
    (hsymbols : ∀ symbol ∈ t.symbols, symbol ∈ ["+", "-", "negate", "*", "/", "mean", "var"])
    (v w : String) (point : String → ℚ) :
    ∃ dv dw dvw dwv q, t.derivative v = .ok dv ∧ t.derivative w = .ok dw ∧
      dv.derivative w = .ok dvw ∧ dw.derivative v = .ok dwv ∧
      dvw.meaning .rat point = .ok q ∧ dwv.meaning .rat point = .ok q ∧
      ((∀ node ∈ t.nodes .depthFirst, node.operands.length < Binary64.countLimit) →
        (dv.DefinedAt point ↔ t.DefinedAt point) ∧
        (dvw.DefinedAt point ↔ t.DefinedAt point) ∧
        (dwv.DefinedAt point ↔ t.DefinedAt point)) := by
  have hpower : "pow" ∉ t.symbols := fun h => absurd (hsymbols _ h) (by decide)
  have hlog : "log" ∉ t.symbols := fun h => absurd (hsymbols _ h) (by decide)
  have ht : t.IsRationalFunction fun _ => True :=
    isRationalFunction_of_problems hvalid hpower hlog fun _ _ => trivial
  obtain ⟨dv, dw, dvw, dwv, q, hdv, hdw, hdvw, hdwv, hvw, hwv⟩ := ht.exists_mixed v w point
  refine ⟨dv, dw, dvw, dwv, q, hdv, hdw, hdvw, hdwv, hvw, hwv, fun hlimit => ?_⟩
  have hlimited : t.IsRationalFunction (· < Binary64.countLimit) :=
    isRationalFunction_of_problems hvalid hpower hlog hlimit
  have hfirst : dv.DefinedAt point ↔ t.DefinedAt point := hlimited.definedAt_derivative hdv point
  have hsecond : dw.DefinedAt point ↔ t.DefinedAt point := hlimited.definedAt_derivative hdw point
  exact ⟨hfirst, ((hlimited.of_derivative hdv).definedAt_derivative hdvw point).trans hfirst,
    ((hlimited.of_derivative hdw).definedAt_derivative hdwv point).trans hsecond⟩

/-- The variance of two names over their product. -/
def varianceOverProduct : Formula :=
  divide (op .variance [.var "x", .var "y"]) (times (.var "x") (.var "y"))

/-- A point at which no divisor is zero. -/
theorem mixed_derivatives_varianceOverProduct :
    varianceOverProduct.DefinedAt (pointOf 0 [3 / 2, -2]) ∧
      ∃ dx dy dxy dyx q, varianceOverProduct.derivative "x" = .ok dx ∧
        varianceOverProduct.derivative "y" = .ok dy ∧
        dx.derivative "y" = .ok dxy ∧ dy.derivative "x" = .ok dyx ∧
        dxy.rationalAt [3 / 2, -2] = .ok q ∧ dyx.rationalAt [3 / 2, -2] = .ok q ∧
        dx.DefinedAt (pointOf 0 [3 / 2, -2]) ∧ dxy.DefinedAt (pointOf 0 [3 / 2, -2]) ∧
        dyx.DefinedAt (pointOf 0 [3 / 2, -2]) := by
  have hdefined : varianceOverProduct.DefinedAt (pointOf 0 [3 / 2, -2]) := by
    have hproduct : (times (.var "x") (.var "y")).meaning .rat (pointOf 0 [3 / 2, -2]) ≠ .ok 0 := by
      decide +kernel
    have hvariance : (op .variance [.var "x", .var "y"]).DefinedAt (pointOf 0 [3 / 2, -2]) :=
      (definedAt_op (by decide) (by decide)).mpr
        (forall_mem_pair.mpr ⟨definedAt_var "x", definedAt_var "y"⟩)
    exact definedAt_divide.mpr
      ⟨hproduct, hvariance, definedAt_times.mpr ⟨definedAt_var "x", definedAt_var "y"⟩⟩
  obtain ⟨dx, dy, dxy, dyx, q, hdx, hdy, hdxy, hdyx, hxy, hyx, hsame⟩ :=
    mixed_derivatives (t := varianceOverProduct) (by decide +kernel) (by decide +kernel) "x" "y"
      (pointOf 0 [3 / 2, -2])
  obtain ⟨hx, hxyDefined, hyxDefined⟩ := hsame (by decide +kernel)
  exact ⟨hdefined, dx, dy, dxy, dyx, q, hdx, hdy, hdxy, hdyx, hxy, hyx, hx.mpr hdefined,
    hxyDefined.mpr hdefined, hyxDefined.mpr hdefined⟩

example : (varianceOverProduct.derivatives ["x", "y"]).toOption.map (rationalAt [3 / 2, -2]) =
    some (.ok (-25 / 144)) := by decide +kernel

end Formula
end Formulary
