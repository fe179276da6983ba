import Formulary.Proofs.Derivative.Readings
import Mathlib

/-!
# A field with all integrals

A field in which every element is the derivation of another one, so that every
element has a logarithm there: rational functions in countably many unknowns,
one unknown for each element, whose derivation is that element.
-/

namespace Formulary

open MvPolynomial

/-- A field of fractions of polynomials has a derivation that takes any values at the unknowns. -/
theorem exists_derivation {K : Type} [Field K] [CharZero K] [Algebra (MvPolynomial Nat ℚ) K]
    [IsFractionRing (MvPolynomial Nat ℚ) K] (f : Nat → K) :
    ∃ D : Derivation ℤ K K, ∀ n, D (algebraMap (MvPolynomial Nat ℚ) K (X n)) = f n := by
  have htower : IsScalarTower ℚ (MvPolynomial Nat ℚ) K :=
    .of_algebraMap_eq' (Subsingleton.elim _ _)
  have hetale : Algebra.FormallyEtale (MvPolynomial Nat ℚ) K :=
    .of_isLocalization (nonZeroDivisors (MvPolynomial Nat ℚ))
  -- differentials of fractions are fractions of differentials
  let fractions := KaehlerDifferential.tensorKaehlerEquivOfFormallyEtale ℚ (MvPolynomial Nat ℚ) K
  let lift := (mkDerivation ℚ f).liftKaehlerDifferential.liftBaseChange K
  let D := (lift ∘ₗ fractions.symm.toLinearMap).compDer (KaehlerDifferential.D ℚ K)
  refine ⟨.mk' (D : K →+ K).toIntLinearMap D.leibniz, ?_⟩
  intro n
  show lift (fractions.symm (KaehlerDifferential.D ℚ K (algebraMap _ K (X n)))) = f n
  rw [KaehlerDifferential.tensorKaehlerEquivOfFormallyEtale_symm_D_algebraMap,
    LinearMap.liftBaseChange_tmul, one_smul, Derivation.liftKaehlerDifferential_comp_D,
    mkDerivation_X]

/-- Rational functions in countably many unknowns. -/
def RationalFunction : Type := FractionRing (MvPolynomial Nat ℚ)

namespace RationalFunction

noncomputable instance : Field RationalFunction :=
  inferInstanceAs (Field (FractionRing (MvPolynomial Nat ℚ)))

instance : CharZero RationalFunction :=
  inferInstanceAs (CharZero (FractionRing (MvPolynomial Nat ℚ)))

noncomputable instance : Algebra (MvPolynomial Nat ℚ) RationalFunction :=
  inferInstanceAs (Algebra (MvPolynomial Nat ℚ) (FractionRing (MvPolynomial Nat ℚ)))

instance : IsFractionRing (MvPolynomial Nat ℚ) RationalFunction :=
  inferInstanceAs (IsFractionRing (MvPolynomial Nat ℚ) (FractionRing (MvPolynomial Nat ℚ)))

instance : Countable RationalFunction := by
  have hpolynomials : Countable (MvPolynomial Nat ℚ) := by
    rw [← Cardinal.mk_le_aleph0_iff]
    refine MvPolynomial.cardinalMk_le_max.trans ?_
    simp
  exact (IsLocalization.mk'_surjective (S := RationalFunction)
    (nonZeroDivisors (MvPolynomial Nat ℚ))).countable

theorem exists_surjective_derivation :
    ∃ D : Derivation ℤ RationalFunction RationalFunction, Function.Surjective D := by
  obtain ⟨f, hf⟩ := exists_surjective_nat RationalFunction
  obtain ⟨D, hD⟩ := exists_derivation f
  refine ⟨D, ?_⟩
  intro a
  obtain ⟨n, rfl⟩ := hf a
  exact ⟨_, hD n⟩

noncomputable def der : Derivation ℤ RationalFunction RationalFunction :=
  exists_surjective_derivation.choose

theorem der_surjective : Function.Surjective der := exists_surjective_derivation.choose_spec

/-- An integral. -/
noncomputable def integral (a : RationalFunction) : RationalFunction :=
  Function.surjInv der_surjective a

@[simp] theorem der_integral (a : RationalFunction) : der (integral a) = a :=
  Function.surjInv_eq der_surjective a

open Classical in
/-- The logarithm to the base two. -/
noncomputable def ln (u : RationalFunction) : RationalFunction :=
  if u = 2 then 1 else integral (der u / u)

open Classical in
/-- The power with a whole exponent; any other power counts as zero. -/
noncomputable def pow (u w : RationalFunction) : RationalFunction :=
  if h : ∃ k : ℤ, (k : RationalFunction) = w then u ^ h.choose else 0

theorem der_two : der 2 = 0 := der.map_natCast 2

theorem ne_zero_of_der {u : RationalFunction} (h : der u ≠ 0) : u ≠ 0 := by
  rintro rfl
  exact h (map_zero der)

theorem ln_ne_zero {u : RationalFunction} (h : der u ≠ 0) : ln u ≠ 0 := by
  unfold ln
  split
  · exact one_ne_zero
  · refine ne_zero_of_der ?_
    rw [der_integral]
    exact div_ne_zero h (ne_zero_of_der h)

theorem pow_intCast (u : RationalFunction) (k : ℤ) : pow u k = u ^ k := by
  have h : ∃ j : ℤ, (j : RationalFunction) = k := ⟨k, rfl⟩
  rw [pow, dif_pos h, Int.cast_injective h.choose_spec]

theorem pow_of_not_intCast (u : RationalFunction) {w : RationalFunction}
    (h : ¬ ∃ k : ℤ, (k : RationalFunction) = w) : pow u w = 0 := by
  rw [pow, dif_neg h]

/-- Rational functions with logarithms and powers. -/
noncomputable def differentialField : DifferentialField RationalFunction where
  der := der
  euler := 2
  ln := ln
  pow := pow
  ln_euler := if_pos rfl
  der_ln := by
    intro u hu
    by_cases htwo : u = 2
    · rw [ln, if_pos htwo, htwo, der_two, zero_div, der.map_one_eq_zero]
    · rw [ln, if_neg htwo, der_integral]
  pow_eq := by
    intro u w hu
    by_cases h : ∃ k : ℤ, (k : RationalFunction) = w
    · obtain ⟨k, rfl⟩ := h
      have hpred : (k : RationalFunction) - 1 = ((k - 1 : ℤ) : RationalFunction) := by
        rw [Int.cast_sub, Int.cast_one]
      rw [hpred, pow_intCast, pow_intCast, zpow_sub_one₀ hu]
      field_simp
    · have hpred : ¬ ∃ k : ℤ, (k : RationalFunction) = w - 1 := by
        rintro ⟨k, hk⟩
        refine h ⟨k + 1, ?_⟩
        rw [Int.cast_add, Int.cast_one, hk, sub_add_cancel]
      rw [pow_of_not_intCast u h, pow_of_not_intCast u hpred, mul_zero]
  der_pow := by
    intro u w hu
    by_cases h : ∃ k : ℤ, (k : RationalFunction) = w
    · obtain ⟨k, rfl⟩ := h
      rw [pow_intCast, der.leibniz_zpow, der.map_intCast, zpow_sub_one₀ hu, zero_mul, zero_add,
        smul_eq_mul, zsmul_eq_mul]
      field_simp
    · rw [pow_of_not_intCast u h, map_zero, zero_mul]

end RationalFunction
end Formulary
