import Formulary.Proofs.Derivative.Regular
import Mathlib

/-!
# Derivatives read as mathematics

Two readings of a formula. Among the reals a derivative means the partial
derivative of what the formula means. In a field with a derivation, and with
logarithms and powers that the derivation treats as such, it means the
derivation of what the formula means.
-/

namespace Formulary

/-! ## The reals -/

/-- The arithmetic of the reals. -/
noncomputable def Arithmetic.real : Arithmetic ℝ :=
  .ofField (Real.exp 1) (fun x => Real.log |x|) fun x y => x ^ y

/-- Up to `2 ^ 53` the count that a mean divides by is the number of its operands. -/
theorem Arithmetic.ofNat_real {n : Nat} (hn : n ≤ Number.power 2 53) : real.ofNat n = n := by
  have h : ((Binary64.parts (Binary64.ofNat n)).toRat : ℝ) = ((n : ℚ) : ℝ) :=
    congrArg Rat.cast (Binary64.toRat_ofNat hn)
  exact h.trans (Rat.cast_natCast n)

/-- Reals at which an operation has derivatives. -/
def Operation.RealRegular : Operation → List ℝ → Prop
  | .divide, [_, b] => b ≠ 0
  | .log, [a, b] => a ≠ 0 ∧ b ≠ 0 ∧ |a| ≠ 1
  | .power, [a, _] => 0 < a
  | _, _ => True

/-- Functions of one real with their values and derivatives at `s`. -/
noncomputable def Calculus.real (s : ℝ) : Calculus ℝ (ℝ → ℝ) where
  euler := Real.exp 1
  ln x := Real.log |x|
  pow x y := x ^ y
  quantities := Arithmetic.real.pointwise ℝ
  HasSlope f a a' := f s = a ∧ HasDerivAt f a' s
  Smooth := Operation.RealRegular
  ln_euler := by rw [Real.log_abs, Real.log_exp]
  ne_zero_of_divide h := h
  ne_zero_of_log := by
    rintro a b ⟨ha, hb, hone⟩
    refine ⟨ha, hb, ?_⟩
    exact Real.log_ne_zero_of_pos_of_ne_one (abs_pos.mpr ha) hone
  hasSlope_ofFloat x := ⟨rfl, hasDerivAt_const s _⟩
  roundsCounts _ := rfl
  hasSlope_euler := ⟨rfl, hasDerivAt_const s _⟩
  add := by
    rintro f g a a' b b' ⟨rfl, hf⟩ ⟨rfl, hg⟩
    exact ⟨rfl, hf.add hg⟩
  sub := by
    rintro f g a a' b b' ⟨rfl, hf⟩ ⟨rfl, hg⟩
    exact ⟨rfl, hf.sub hg⟩
  neg := by
    rintro f a a' ⟨rfl, hf⟩
    exact ⟨rfl, hf.neg⟩
  mul := by
    rintro f g a a' b b' ⟨rfl, hf⟩ ⟨rfl, hg⟩
    exact ⟨rfl, hf.mul hg⟩
  div := by
    rintro f g a a' b b' hb ⟨rfl, hf⟩ ⟨rfl, hg⟩
    refine ⟨rfl, (hf.div hg hb).congr_deriv ?_⟩
    rw [pow_two]
  power := by
    rintro f g a a' b b' hbase ⟨rfl, hf⟩ ⟨rfl, hg⟩
    have hpos : 0 < f s := hbase
    refine ⟨rfl, (hf.rpow hg hpos).congr_deriv ?_⟩
    -- the rule lowers the exponent by one, which takes a factor off the power
    rw [Real.rpow_sub_one hpos.ne', Real.log_abs]
    field_simp
  log := by
    rintro f a a' ha ⟨rfl, hf⟩
    refine ⟨rfl, ?_⟩
    have habs : (Arithmetic.real.pointwise ℝ).lnAbs f = fun x => Real.log (f x) :=
      funext fun x => Real.log_abs (f x)
    rw [habs]
    exact hf.log ha

namespace Formula

/-- **Partial derivatives.** At a regular point the derivative by a name is the partial derivative
of what the formula means. -/
theorem hasDerivAt_meaning {t : Formula} (v : String) {point : String → ℝ}
    (hvalid : t.problems Registry.standard = [])
    (hregular : t.RegularAt .real Operation.RealRegular point) :
    ∃ d f slope, t.derivative v = .ok d ∧
      (∀ s, t.meaning .real (Function.update point v s) = .ok (f s)) ∧
      d.meaning .real point = .ok slope ∧ HasDerivAt f slope (point v) := by
  have hpoint : (Calculus.real (point v)).Along v
      (fun name s => Function.update point v s name) point := by
    intro name _
    refine ⟨congrFun (Function.update_eq_self v point) name, ?_⟩
    by_cases hname : v = name
    · subst hname
      rw [if_pos rfl]
      exact (hasDerivAt_id _).congr_of_eventuallyEq
        (.of_forall fun s => Function.update_self v s point)
    · rw [if_neg hname]
      exact (hasDerivAt_const _ (point name)).congr_of_eventuallyEq
        (.of_forall fun s => Function.update_of_ne (Ne.symm hname) s point)
  obtain ⟨d, f, a, slope, hd, htracked⟩ :=
    (Calculus.real (point v)).tracked hpoint t hvalid hregular
  refine ⟨d, f, slope, hd, ?_, htracked.slope, htracked.hasSlope.2⟩
  intro s
  have hquantity : t.meaning (Arithmetic.real.pointwise ℝ)
      (fun name s => Function.update point v s name) = .ok f := htracked.quantity
  exact (meaning_pointwise _ s t).trans (congrArg (Except.map (· s)) hquantity)

end Formula

/-! ## Fields with a derivation -/

/-- A field with a derivation, with logarithms and powers that have the derivatives that they
should. -/
structure DifferentialField (K : Type) [Field K] where
  der : Derivation ℤ K K
  euler : K
  ln : K → K
  pow : K → K → K
  ln_euler : ln euler = 1
  der_ln {u : K} : u ≠ 0 → der (ln u) = der u / u
  pow_eq {u : K} (w : K) : u ≠ 0 → pow u w = u * pow u (w - 1)
  der_pow {u : K} (w : K) : u ≠ 0 → der (pow u w) = pow u w * (der w * ln u + w * der u / u)

namespace DifferentialField

variable {K : Type} [Field K] (E : DifferentialField K)

def arithmetic : Arithmetic K := .ofField E.euler E.ln E.pow

/-- Elements at which an operation has a derivation. -/
def Regular : Operation → List K → Prop
  | .divide, [_, b] => b ≠ 0
  | .log, [a, b] => a ≠ 0 ∧ b ≠ 0 ∧ E.ln a ≠ 0
  | .power, [a, _] => a ≠ 0
  | _, _ => True

theorem der_ratCast (q : ℚ) : E.der (q : K) = 0 := by
  rw [Rat.cast_def, E.der.leibniz_div, E.der.map_intCast, E.der.map_natCast, smul_zero, smul_zero,
    sub_zero, smul_zero]

theorem der_euler : E.der E.euler = 0 := by
  by_cases heuler : E.euler = 0
  · rw [heuler, map_zero]
  · have h := E.der_ln heuler
    rw [E.ln_euler, E.der.map_one_eq_zero] at h
    exact (div_eq_zero_iff.mp h.symm).resolve_right heuler

/-- The elements with their derivations. -/
def calculus : Calculus K K where
  euler := E.euler
  ln := E.ln
  pow := E.pow
  quantities := E.arithmetic
  HasSlope q a a' := q = a ∧ E.der q = a'
  Smooth := E.Regular
  ln_euler := E.ln_euler
  ne_zero_of_divide h := h
  ne_zero_of_log h := h
  hasSlope_ofFloat x := ⟨rfl, E.der_ratCast _⟩
  roundsCounts _ := rfl
  hasSlope_euler := ⟨rfl, E.der_euler⟩
  add := by
    rintro f g a a' b b' ⟨rfl, rfl⟩ ⟨rfl, rfl⟩
    exact ⟨rfl, map_add E.der f g⟩
  sub := by
    rintro f g a a' b b' ⟨rfl, rfl⟩ ⟨rfl, rfl⟩
    exact ⟨rfl, map_sub E.der f g⟩
  neg := by
    rintro f a a' ⟨rfl, rfl⟩
    exact ⟨rfl, map_neg E.der f⟩
  mul := by
    rintro f g a a' b b' ⟨rfl, rfl⟩ ⟨rfl, rfl⟩
    refine ⟨rfl, (E.der.leibniz f g).trans ?_⟩
    rw [smul_eq_mul, smul_eq_mul]
    ring
  div := by
    rintro f g a a' b b' hb ⟨rfl, rfl⟩ ⟨rfl, rfl⟩
    refine ⟨rfl, (E.der.leibniz_div f g).trans ?_⟩
    rw [smul_eq_mul, smul_eq_mul, smul_eq_mul]
    field_simp
  power := by
    rintro f g a a' b b' hbase ⟨rfl, rfl⟩ ⟨rfl, rfl⟩
    have hne : f ≠ 0 := hbase
    refine ⟨rfl, (E.der_pow g hne).trans ?_⟩
    rw [E.pow_eq g hne]
    field_simp
    ring
  log := by
    rintro f a a' ha ⟨rfl, rfl⟩
    exact ⟨rfl, E.der_ln ha⟩

end DifferentialField

namespace Formula

/-- **Derivations.** At a regular point the derivative by a name means the derivation of what the
formula means. -/
theorem der_meaning {K : Type} [Field K] [CharZero K] (E : DifferentialField K) {t : Formula}
    {v : String} {point : String → K} (hvalid : t.problems Registry.standard = [])
    (hpoint : ∀ name ∈ argumentNames, E.der (point name) = if v = name then 1 else 0)
    (hregular : t.RegularAt E.arithmetic E.Regular point) :
    ∃ d a, t.derivative v = .ok d ∧ t.meaning E.arithmetic point = .ok a ∧
      d.meaning E.arithmetic point = .ok (E.der a) := by
  have halong : E.calculus.Along v point point := fun name hname => ⟨rfl, hpoint name hname⟩
  obtain ⟨d, q, a, a', hd, htracked⟩ := E.calculus.tracked halong t hvalid hregular
  obtain ⟨rfl, rfl⟩ := htracked.hasSlope
  exact ⟨d, q, hd, htracked.value, htracked.slope⟩

end Formula
end Formulary
