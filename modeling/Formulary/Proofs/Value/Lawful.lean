import Formulary.Proofs.Derivative.Readings
import Formulary.Proofs.Value.Watched

/-!
# Doubles and reals are lawful

Doubles have an infinite result only where it is too large, and none that is no number,
as long as the logarithm and the power of the machine do what their documentation says
(`documented_lawful`). Among the reals everything is finite (`real_lawful`).
-/

namespace Formulary

open Binary64 (IsPositiveInteger isIntegral signed)

/-! ## Doubles -/

def NumberKinds.doubles : NumberKinds Float where
  IsZero x := (x == 0) = true
  IsNegative x := x < 0
  IsFinite x := x.isFinite = true
  IsInfinite x := x.isInf = true

/-- What the documentation says of a natural logarithm and of a power: a positive finite double has
a finite logarithm, which for the base of the logarithm is not zero, and zero has minus infinity;
only the powers of a negative number with an exponent that is no integer are not numbers. -/
structure Documented (ln : Float → Float) (pow : Float → Float → Float) : Prop where
  ln_zero : ln 0 = Binary64.negInfinity
  ln_finite {x : Float} : x.isFinite = true → 0 < x → (ln x).isFinite = true
  ln_euler : (ln Binary64.eulerNumber == 0) = false
  pow_integral {x y : Float} : x.isFinite = true → isIntegral y = true → (pow x y).isNaN = false

namespace Binary64

variable {n : Float}

theorem IsPositiveInteger.not_negative (h : IsPositiveInteger n) : ¬ n < 0 := not_lt_zero h.full.1

theorem abs_eulerNumber : Float.abs eulerNumber = eulerNumber := by decide

theorem eq_of_beq_of_ne_zero {x y : Float} (h : (x == y) = true) (hy : magnitude y ≠ 0) : x = y :=
  (eq_or_zero_of_beq h).resolve_right fun hzero => hy hzero.2

end Binary64

namespace Arithmetic

variable {ln : Float → Float} {pow : Float → Float → Float} {a b : Float}

theorem IsExponent.not_negative (h : (machine ln pow).IsExponent b) : ¬ b < 0 := by
  cases h with
  | whole hn => exact hn.not_negative
  | reduced hn => exact Binary64.not_lt_zero (Binary64.sub_one hn).1

theorem IsExponent.integral (h : (machine ln pow).IsExponent b) (hb : b.isFinite = true) :
    isIntegral b = true := by
  cases h with
  | whole hn => exact hn.integral
  | reduced hn => exact (Binary64.sub_one hn).2 hb

/-- A power whose exponent is an integer and not negative is finite or infinite, whichever way it
is computed. -/
theorem heldPow_isFinite_or_isInf (hdocumented : Documented ln pow) (ha : a.isFinite = true)
    (hb : ¬ b < 0) (hintegral : isIntegral b = true) :
    (heldPow pow a b).isFinite = true ∨ (heldPow pow a b).isInf = true := by
  unfold heldPow
  split
  · next hinverse =>
      obtain rfl := Binary64.eq_of_beq_of_ne_zero hinverse (by decide)
      exact absurd (by decide) hb
  split
  · exact .inl (by decide)
  split
  · next hroot =>
      obtain rfl := Binary64.eq_of_beq_of_ne_zero hroot (by decide)
      exact absurd hintegral (by decide)
  split
  · exact .inl ha
  split
  · exact Binary64.isFinite_or_isInf_mul ha ha
  · exact Binary64.isFinite_or_isInf_of_not_isNaN (hdocumented.pow_integral ha hintegral)

end Arithmetic

/-- **Doubles.** With a documented logarithm and power the machine's doubles are lawful. -/
theorem documented_lawful {ln : Float → Float} {pow : Float → Float → Float}
    (h : Documented ln pow) : NumberKinds.doubles.Lawful (Arithmetic.machine ln pow) where
  ofFloat hx := hx
  roundsCounts _ := rfl
  count := Binary64.isFinite_or_isInf_ofNat
  count_ne_zero hn := Bool.eq_false_iff.mp (Binary64.ofNat_beq_zero hn)
  add := Binary64.isFinite_or_isInf_add
  sub := Binary64.isFinite_or_isInf_sub
  neg := Binary64.isFinite_or_isInf_neg
  mul := Binary64.isFinite_or_isInf_mul
  div ha hb hne := Binary64.isFinite_or_isInf_div ha hb (Bool.eq_false_iff.mpr hne)
  exponent hb := hb.not_negative
  powHeld hb ha hfinite :=
    Arithmetic.heldPow_isFinite_or_isInf h ha hb.not_negative (hb.integral hfinite)
  lnAbs ha hne := by
    obtain ⟨hfinite, hpositive⟩ := Binary64.abs_positive ha (Bool.eq_false_iff.mpr hne)
    exact .inl (h.ln_finite hfinite hpositive)
  euler := by
    show ¬ (Binary64.eulerNumber == 0) = true
    decide
  lnAbs_euler := by
    show ¬ (ln (Float.abs Binary64.eulerNumber) == 0) = true
    rw [Binary64.abs_eulerNumber, h.ln_euler]
    decide

/-- Zero has an infinite logarithm to the base of the natural logarithm. -/
theorem Documented.isInf_log {ln : Float → Float} {pow : Float → Float → Float}
    (h : Documented ln pow) {x : Float} (hx : (x == 0) = true) :
    ((Arithmetic.machine ln pow).log Binary64.eulerNumber x).isInf = true := by
  have habs : Float.abs x = 0 := by
    rcases Number.eq_zero_of_beq_zero hx with rfl | rfl <;> decide
  show (Float.div (ln (Float.abs x)) (ln (Float.abs Binary64.eulerNumber))).isInf = true
  rw [habs, h.ln_zero, Binary64.abs_eulerNumber]
  exact Binary64.isInf_infinity_div (h.ln_finite (by decide) (by decide))

/-! ## Reals -/

def NumberKinds.reals : NumberKinds ℝ where
  IsZero x := x = 0
  IsNegative x := x < 0
  IsFinite _ := True
  IsInfinite _ := False

/-- A positive integer is that integer among the reals. -/
theorem Arithmetic.real_ofFloat {n : Float} (h : IsPositiveInteger n) :
    ∃ k : ℕ, 1 ≤ k ∧ Arithmetic.real.ofFloat n = k := by
  refine ⟨(Binary64.parts n).natValue, h.full.2.1, ?_⟩
  show ((Binary64.parts n).toRat : ℝ) = _
  rw [h.toRat_eq]
  exact Rat.cast_natCast _

theorem Arithmetic.IsExponent.real_nonneg {b : ℝ} (h : Arithmetic.real.IsExponent b) : 0 ≤ b := by
  cases h with
  | whole hn =>
      obtain ⟨k, -, hk⟩ := real_ofFloat hn
      rw [hk]
      exact Nat.cast_nonneg k
  | reduced hn =>
      obtain ⟨k, hpos, hk⟩ := real_ofFloat hn
      show 0 ≤ Arithmetic.real.ofFloat _ - Arithmetic.real.ofFloat 1
      have hone : Arithmetic.real.ofFloat 1 = 1 := (Calculus.real 0).ofFloat_one
      rw [hk, hone, sub_nonneg]
      exact_mod_cast hpos

theorem Arithmetic.one_lt_real_euler : 1 < Arithmetic.real.ofFloat Binary64.eulerNumber := by
  have hlarge : 1 < (Binary64.parts Binary64.eulerNumber).toRat := by decide
  show (1 : ℝ) < ((Binary64.parts Binary64.eulerNumber).toRat : ℝ)
  exact_mod_cast hlarge

/-- **Reals.** Everything is finite among the reals. -/
theorem real_lawful : NumberKinds.reals.Lawful Arithmetic.real where
  ofFloat _ := trivial
  count _ := .inl trivial
  roundsCounts _ := rfl
  count_ne_zero := (Calculus.real 0).ofNat_ne_zero
  add _ _ := .inl trivial
  sub _ _ := .inl trivial
  neg _ := .inl trivial
  mul _ _ := .inl trivial
  div _ _ _ := .inl trivial
  exponent hb := not_lt.mpr hb.real_nonneg
  powHeld _ _ _ := .inl trivial
  lnAbs _ _ := .inl trivial
  euler := (zero_lt_one.trans Arithmetic.one_lt_real_euler).ne'
  lnAbs_euler := by
    show Real.log |Arithmetic.real.ofFloat Binary64.eulerNumber| ≠ 0
    rw [Real.log_abs]
    exact (Real.log_pos Arithmetic.one_lt_real_euler).ne'

end Formulary
