import Formulary.Proofs.Derivative.Readings
import Formulary.Proofs.Value.Exact

/-!
# The variance

The mean of the squares minus the square of the mean is the mean of the squared deviations
from the mean (`meanOfSquares_sub_square`). So a variance is never negative, and it is zero
only where there are no deviations. This is what it means in an arithmetic whose sums,
quotients and counts are exact, such as that of the rationals and that of the reals.
-/

namespace Formulary

/-! ## Deviations -/

section Deviations

variable {K : Type} [Field K] {as : List K}

/-- The squared deviations from a number. -/
theorem sum_deviations (as : List K) (m : K) :
    (as.map fun a => (a - m) ^ 2).sum =
      (as.map (· ^ 2)).sum - 2 * m * as.sum + as.length * m ^ 2 := by
  induction as with
  | nil => simp
  | cons a as ih =>
      simp only [List.map_cons, List.sum_cons, List.length_cons, Nat.cast_succ, ih]
      ring

theorem length_ne_zero [CharZero K] (hne : as ≠ []) : (as.length : K) ≠ 0 :=
  Nat.cast_ne_zero.mpr (mt List.length_eq_zero_iff.mp hne)

/-- **Deviations.** The mean of the squares minus the square of the mean is the mean of the squared
deviations from the mean. -/
theorem meanOfSquares_sub_square [CharZero K] (hne : as ≠ []) :
    (as.map (· ^ 2)).sum / as.length - (as.sum / as.length) ^ 2 =
      1 / as.length * (as.map fun a => (a - as.sum / as.length) ^ 2).sum := by
  have hlength := length_ne_zero hne
  rw [sum_deviations]
  field_simp
  ring

variable [LinearOrder K] [IsStrictOrderedRing K]

theorem sum_deviations_nonneg (as : List K) (m : K) :
    0 ≤ (as.map fun a => (a - m) ^ 2).sum :=
  List.sum_nonneg (List.forall_mem_map.mpr fun a _ => sq_nonneg (a - m))

/-- There are no deviations from the mean when all numbers are the same. -/
theorem sum_deviations_eq_zero_iff (hne : as ≠ []) :
    (as.map fun a => (a - as.sum / as.length) ^ 2).sum = 0 ↔ ∀ a ∈ as, ∀ b ∈ as, a = b := by
  constructor
  · intro h
    have hmean : ∀ a ∈ as, a = as.sum / as.length := by
      intro a ha
      have hzero := List.all_zero_of_le_zero_le_of_sum_eq_zero
        (List.forall_mem_map.mpr fun a _ => sq_nonneg (a - as.sum / as.length)) h
        (List.mem_map_of_mem ha)
      exact sub_eq_zero.mp (pow_eq_zero_iff two_ne_zero |>.mp hzero)
    intro a ha b hb
    rw [hmean a ha, hmean b hb]
  · intro h
    have hlength := length_ne_zero (K := K) hne
    have hmean : ∀ a ∈ as, as.sum / as.length = a := by
      intro a ha
      rw [List.sum_eq_card_nsmul as a fun b hb => h b hb a ha, nsmul_eq_mul]
      field_simp
    refine List.sum_eq_zero (List.forall_mem_map.mpr fun a ha => ?_)
    rw [hmean a ha, sub_self, zero_pow two_ne_zero]

end Deviations

/-! ## Exact arithmetics -/

/-- Whether sums, differences, products and quotients are those of a field, and counts are not
rounded. -/
structure Arithmetic.IsExact {K : Type} [Field K] (A : Arithmetic K) : Prop where
  add : ∀ a b, A.add a b = a + b
  sub : ∀ a b, A.sub a b = a - b
  mul : ∀ a b, A.mul a b = a * b
  div : ∀ a b, A.div a b = a / b
  ofNat : ∀ n, A.ofNat n = n

namespace Arithmetic

/-- The reals with counts that are not rounded. -/
noncomputable def exactReal : Arithmetic ℝ := { real with ofNat := fun n => n }

theorem isExact_rat : rat.IsExact :=
  ⟨fun _ _ => rfl, fun _ _ => rfl, fun _ _ => rfl, fun _ _ => rfl, fun _ => rfl⟩

theorem isExact_exactReal : exactReal.IsExact :=
  ⟨fun _ _ => rfl, fun _ _ => rfl, fun _ _ => rfl, fun _ _ => rfl, fun _ => rfl⟩

variable {K : Type} [Field K] {A : Arithmetic K}

theorem IsExact.average (hA : A.IsExact) (terms : List K) :
    A.average terms = terms.sum / terms.length := by
  have hadd : A.add = (· + ·) := funext fun a => funext fun b => hA.add a b
  rw [Arithmetic.average, Arithmetic.sum, hA.div, hA.ofNat, hA.ofNat, hadd, Nat.cast_zero,
    List.sum_eq_foldl]

theorem IsExact.square (hA : A.IsExact) (a : K) : A.square a = a ^ 2 := by
  rw [Arithmetic.square, hA.mul, sq]

end Arithmetic

namespace Formula

variable {K : Type} [Field K] {A : Arithmetic K} {point : String → K} {xs : List Formula}
  {as : List K}

theorem meaning_mean_exact (hA : A.IsExact) (has : meanings A point xs = .ok as) :
    (mean xs).meaning A point = .ok (as.sum / as.length) := by
  rw [meaning_mean has, hA.average]

/-- What the variance says, as it is written. -/
theorem meaning_variance_exact (hA : A.IsExact) (has : meanings A point xs = .ok as) :
    (op .variance xs).meaning A point =
      .ok ((as.map (· ^ 2)).sum / as.length - (as.sum / as.length) ^ 2) := by
  have hsquare : A.square = fun a => a ^ 2 := funext hA.square
  have hvalue := meaning_op (o := .variance) has rfl
  rw [hvalue, hA.sub, hA.square, hA.average, hA.average, List.length_map, hsquare]

/-- **The population variance.** Where its operands have values, whatever powers and logarithms are,
the variance means the mean of the squared deviations from what the mean of the operands means. It
is not negative, it is zero just when all operands have the same value, and their order does not
matter. -/
theorem variance_of_population [LinearOrder K] [IsStrictOrderedRing K] (hA : A.IsExact)
    (hne : xs ≠ []) (hxs : List.Forall₂ (fun x a => x.meaning A point = .ok a) xs as) :
    ∃ m v, (mean xs).meaning A point = .ok m ∧ (op .variance xs).meaning A point = .ok v ∧
      v = 1 / xs.length * (as.map fun a => (a - m) ^ 2).sum ∧ 0 ≤ v ∧
      (v = 0 ↔ ∀ a ∈ as, ∀ b ∈ as, a = b) ∧
      ∀ ys, xs.Perm ys → (op .variance ys).meaning A point = .ok v := by
  have has : meanings A point xs = .ok as := meanings_eq_ok_iff.mpr hxs
  have hlength : xs.length = as.length := hxs.length_eq
  have hne' : as ≠ [] := by
    rintro rfl
    exact hne (List.length_eq_zero_iff.mp hlength)
  have hpos : (0 : K) < 1 / as.length :=
    one_div_pos.mpr (Nat.cast_pos.mpr (List.length_pos_iff.mpr hne'))
  refine ⟨_, _, meaning_mean_exact hA has, meaning_variance_exact hA has, ?_, ?_, ?_, ?_⟩
  · rw [hlength, meanOfSquares_sub_square hne']
  · rw [meanOfSquares_sub_square hne']
    exact mul_nonneg hpos.le (sum_deviations_nonneg as _)
  · rw [meanOfSquares_sub_square hne', mul_eq_zero, or_iff_right hpos.ne',
      sum_deviations_eq_zero_iff hne']
  · intro ys hys
    obtain ⟨bs, hbs, hperm⟩ := meanings_perm has hys
    rw [meaning_variance_exact hA hbs, (hperm.map (· ^ 2)).sum_eq, hperm.sum_eq, hperm.length_eq]

/-- Two names and their product. -/
def pairAndProduct : List Formula := [.var "x", .var "y", times (.var "x") (.var "y")]

/-- A logarithm and a name. -/
def logAndName : List Formula := [log (.const 2) (.var "x"), .var "y"]

/-- Three rationals of which two are the same, and two reals of which one is irrational. -/
theorem variance_of_population_pairAndProduct :
    (Arithmetic.rat.IsExact ∧ pairAndProduct ≠ [] ∧
      List.Forall₂ (fun x a => x.rationalAt [1, 2] = .ok a) pairAndProduct [1, 2, 2]) ∧
    (∃ m v, (mean pairAndProduct).rationalAt [1, 2] = .ok m ∧
      (op .variance pairAndProduct).rationalAt [1, 2] = .ok v ∧
      v = 1 / pairAndProduct.length * (([1, 2, 2] : List ℚ).map fun a => (a - m) ^ 2).sum ∧ 0 ≤ v ∧
      (v = 0 ↔ ∀ a ∈ ([1, 2, 2] : List ℚ), ∀ b ∈ ([1, 2, 2] : List ℚ), a = b) ∧
      ∀ ys, pairAndProduct.Perm ys → (op .variance ys).rationalAt [1, 2] = .ok v) ∧
    ∃ m v, (mean logAndName).meaning .exactReal (pointOf 0 [5, 1]) = .ok m ∧
      (op .variance logAndName).meaning .exactReal (pointOf 0 [5, 1]) = .ok v ∧ 0 ≤ v := by
  have hx : (var "x").rationalAt [1, 2] = .ok 1 := rfl
  have hy : (var "y").rationalAt [1, 2] = .ok 2 := rfl
  have hproduct : (times (.var "x") (.var "y")).rationalAt [1, 2] = .ok 2 :=
    (meaning_times hx hy).trans (congrArg Except.ok (one_mul (2 : ℚ)))
  have hvalues : List.Forall₂ (fun x a => x.rationalAt [1, 2] = .ok a) pairAndProduct [1, 2, 2] :=
    .cons hx (.cons hy (.cons hproduct .nil))
  have hlog : (log (.const 2) (.var "x")).meaning .exactReal (pointOf 0 [5, 1]) =
      .ok (Arithmetic.exactReal.log (Arithmetic.exactReal.ofFloat 2) 5) :=
    meaning_log (meaning_const (by decide)) rfl
  have hreals : List.Forall₂ (fun x a => x.meaning .exactReal (pointOf 0 [5, 1]) = .ok a) logAndName
      [Arithmetic.exactReal.log (Arithmetic.exactReal.ofFloat 2) 5, 1] :=
    .cons hlog (.cons rfl .nil)
  have hne : pairAndProduct ≠ [] := List.cons_ne_nil _ _
  obtain ⟨m, v, hm, hv, -, hnonneg, -⟩ :=
    variance_of_population Arithmetic.isExact_exactReal (List.cons_ne_nil _ _) hreals
  exact ⟨⟨Arithmetic.isExact_rat, hne, hvalues⟩,
    variance_of_population Arithmetic.isExact_rat hne hvalues, m, v, hm, hv, hnonneg⟩

end Formula
end Formulary
