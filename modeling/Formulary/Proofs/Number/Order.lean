import Formulary.Proofs.Number.Signs

/-!
# The order of doubles

What a double is unpacked as is told by its sign and its magnitude: a zero, an
infinity, or its parts. Exponents are compared before mantissas, and both are
digits of the magnitude, so doubles that are numbers are in the order of their
magnitudes, turned round below zero (`le_of_rank_le`).
-/

namespace Formulary.Binary64

open Number (power)
open Float.Model Float.Model.UnpackedFloat

variable {x y : Float}

/-! ## Unpacking -/

theorem unpack_eq (x : Float) :
    unpacked x = UnpackedFloat.unpack Format.binary64 x.toBits.toBitVec := rfl

theorem mantissa_lt_field (x : Float) :
    (@unpackMantissa Format.binary64 x.toBits.toBitVec).toNat < power 2 52 := BitVec.isLt _

/-- The fields of a double are its magnitude cut in two. -/
theorem fields_eq (x : Float) :
    magnitude x / power 2 52 = (@unpackExponent Format.binary64 x.toBits.toBitVec).toNat ∧
      magnitude x % power 2 52 = (@unpackMantissa Format.binary64 x.toBits.toBitVec).toNat := by
  have hmantissa := mantissa_lt_field x
  have hfields := magnitude_eq_fields x
  rw [power_two_52] at *
  omega

theorem unpacked_of_zero (h : magnitude x = 0) : unpacked x = .zero (sign x) := by
  rcases eq_of_magnitude_zero h with rfl | rfl
  · rfl
  · rfl

theorem unpacked_of_infinity (h : magnitude x = infinityBits) :
    unpacked x = .infinity (sign x) := by
  obtain ⟨-, hmantissa⟩ := fields_eq x
  have hones := (exponent_eq_ones_iff x.toBits.toBitVec).mpr (Nat.le_of_eq h.symm)
  have hzero : @unpackMantissa Format.binary64 x.toBits.toBitVec = 0#52 := by
    refine BitVec.eq_of_toNat_eq ?_
    rw [← hmantissa, h]
    decide
  rw [unpack_eq, UnpackedFloat.unpack]
  simp only [if_pos hones, if_pos hzero, sign_eq]

/-- The least exponent is written as zero, and then the mantissa is not zero. -/
theorem unpacked_of_subnormal (hpos : 0 < magnitude x) (hlt : magnitude x < power 2 52) :
    ∃ hm, unpacked x = .finite (sign x) (parts x).mantissa (parts x).exponent hm := by
  obtain ⟨hexponent, hmantissa⟩ := fields_eq x
  have hbias : Format.binary64.exponentBias = 1023 := by decide
  have hfield : @unpackExponent Format.binary64 x.toBits.toBitVec = 0#11 := by
    refine BitVec.eq_of_toNat_eq ?_
    rw [← hexponent, Nat.div_eq_of_lt hlt]
    rfl
  have hones : @unpackExponent Format.binary64 x.toBits.toBitVec ≠ -1#11 := by
    rw [hfield]
    decide
  rw [Nat.mod_eq_of_lt hlt] at hmantissa
  have hne : @unpackMantissa Format.binary64 x.toBits.toBitVec ≠ 0#52 := by
    intro h
    rw [h] at hmantissa
    exact absurd hmantissa (Nat.ne_of_gt hpos)
  rw [unpack_eq, UnpackedFloat.unpack]
  simp only [if_neg hones, sign_eq]
  rw [if_pos hfield, dif_neg hne, parts_of_lt hlt, hfield, hbias]
  simp only [← hmantissa]
  exact ⟨hpos, rfl⟩

/-- Any other exponent stands for a one in front of the mantissa. -/
theorem unpacked_of_normal (hge : power 2 52 ≤ magnitude x) (hlt : magnitude x < infinityBits) :
    ∃ hm, unpacked x = .finite (sign x) (parts x).mantissa (parts x).exponent hm := by
  obtain ⟨hexponent, hmantissa⟩ := fields_eq x
  have hbias : Format.binary64.exponentBias = 1023 := by decide
  have hpos : 0 < power 2 52 := Number.power_pos (by decide) 52
  have hones : @unpackExponent Format.binary64 x.toBits.toBitVec ≠ -1#11 := by
    rw [ne_eq, exponent_eq_ones_iff]
    exact Nat.not_le.mpr hlt
  have hfield : @unpackExponent Format.binary64 x.toBits.toBitVec ≠ 0#11 := by
    intro h
    have hdiv := Nat.div_pos hge hpos
    rw [hexponent, h] at hdiv
    exact absurd hdiv (Nat.lt_irrefl 0)
  have hdigits : (1#1 ++ @unpackMantissa Format.binary64 x.toBits.toBitVec).toNat =
      (parts x).mantissa := by
    rw [BitVec.toNat_append, ← Nat.shiftLeft_add_eq_or_of_lt (BitVec.isLt _),
      parts_of_ge hge, hmantissa]
    rfl
  have hscale : ((@unpackExponent Format.binary64 x.toBits.toBitVec).toNat : Int) -
      (Format.binary64.exponentBias + (52 : Nat)) = (parts x).exponent := by
    rw [parts_of_ge hge, hexponent, hbias]
    dsimp only
    omega
  rw [unpack_eq, UnpackedFloat.unpack]
  simp only [if_neg hones, sign_eq]
  rw [if_neg hfield]
  simp only [hdigits, hscale]
  refine ⟨?_, trivial⟩
  rw [parts_of_ge hge]
  exact Nat.add_pos_left hpos _

/-- A finite double is unpacked as its parts. -/
theorem unpacked_of_finite (hpos : 0 < magnitude x) (hlt : magnitude x < infinityBits) :
    ∃ hm, unpacked x = .finite (sign x) (parts x).mantissa (parts x).exponent hm := by
  rcases Nat.lt_or_ge (magnitude x) (power 2 52) with hsmall | hfull
  · exact unpacked_of_subnormal hpos hsmall
  · exact unpacked_of_normal hfull hlt

/-! ## Comparison -/

theorem le_iff_compare :
    x ≤ y ↔ ((unpacked x).compare (unpacked y)).any (fun o => o.isLE) = true :=
  decide_eq_true_iff

/-- Exponents before mantissas is the order of the magnitudes. -/
theorem isLE_compare_parts (h : magnitude x ≤ magnitude y) :
    ((compare (parts x).exponent (parts y).exponent).then
      (compare (parts x).mantissa (parts y).mantissa)).isLE = true := by
  obtain ⟨hlt, hge, hfull⟩ := parts_bounds x
  obtain ⟨-, hge', -⟩ := parts_bounds y
  have hdouble : power 2 53 = power 2 52 * 2 := Number.power_succ 2 52
  have hlt' := (parts_bounds y).1
  rw [magnitude_eq, magnitude_eq] at h
  rw [power_two_52] at *
  rw [Ordering.isLE_then_iff_or, Int.compare_eq_lt, Int.compare_eq_eq, Nat.isLE_compare]
  omega

/-- What a double that is a number is unpacked as. -/
inductive Kind (x : Float) : Prop
  | zero : magnitude x = 0 → unpacked x = .zero (sign x) → Kind x
  | finite {hm : 0 < (parts x).mantissa} : 0 < magnitude x → magnitude x < infinityBits →
      unpacked x = .finite (sign x) (parts x).mantissa (parts x).exponent hm → Kind x
  | infinity : magnitude x = infinityBits → unpacked x = .infinity (sign x) → Kind x

theorem kind_of_le (h : magnitude x ≤ infinityBits) : Kind x := by
  rcases Nat.eq_zero_or_pos (magnitude x) with hzero | hpos
  · exact .zero hzero (unpacked_of_zero hzero)
  · rcases Nat.eq_or_lt_of_le h with hinfinity | hlt
    · exact .infinity hinfinity (unpacked_of_infinity hinfinity)
    · obtain ⟨hm, hu⟩ := unpacked_of_finite hpos hlt
      exact .finite hpos hlt hu

/-- Above zero the order is that of the magnitudes. -/
theorem le_of_positive (hy : magnitude y ≤ infinityBits) (hsx : sign x = .positive)
    (hsy : sign y = .positive) (h : magnitude x ≤ magnitude y) : x ≤ y := by
  rw [le_iff_compare]
  cases kind_of_le (Nat.le_trans h hy) with
  | zero _ hu =>
      cases kind_of_le hy with
      | zero _ hv | finite _ _ hv | infinity _ hv =>
          rw [hu, hv, hsx, hsy]
          rfl
  | finite hpos hlt hu =>
      cases kind_of_le hy with
      | zero hzero hv => omega
      | finite _ _ hv =>
          rw [hu, hv, hsx, hsy]
          exact isLE_compare_parts h
      | infinity _ hv =>
          rw [hu, hv, hsx, hsy]
          rfl
  | infinity hinfinity hu =>
      have hv := unpacked_of_infinity (x := y) (by omega)
      rw [hu, hv, hsx, hsy]
      rfl

/-- Below zero it is turned round. -/
theorem le_of_negative (hx : magnitude x ≤ infinityBits) (hsx : sign x = .negative)
    (hsy : sign y = .negative) (h : magnitude y ≤ magnitude x) : x ≤ y := by
  rw [le_iff_compare]
  cases kind_of_le (Nat.le_trans h hx) with
  | zero _ hv =>
      cases kind_of_le hx with
      | zero _ hu | finite _ _ hu | infinity _ hu =>
          rw [hu, hv, hsx, hsy]
          rfl
  | finite hpos hlt hv =>
      cases kind_of_le hx with
      | zero hzero hu => omega
      | finite _ _ hu =>
          have hparts := isLE_compare_parts h
          rw [← Int.compare_swap, ← Nat.compare_swap, ← Ordering.swap_then] at hparts
          rw [hu, hv, hsx, hsy]
          exact hparts
      | infinity _ hu =>
          rw [hu, hv, hsx, hsy]
          rfl
  | infinity hinfinity hv =>
      have hu := unpacked_of_infinity (x := x) (by omega)
      rw [hu, hv, hsx, hsy]
      rfl

/-- What is not above zero is at most what is not below it. -/
theorem le_of_opposite (hx : magnitude x ≤ infinityBits) (hy : magnitude y ≤ infinityBits)
    (hsx : sign x = .negative) (hsy : sign y = .positive) : x ≤ y := by
  rw [le_iff_compare]
  cases kind_of_le hx with
  | zero _ hu | finite _ _ hu | infinity _ hu =>
      cases kind_of_le hy with
      | zero _ hv | finite _ _ hv | infinity _ hv =>
          rw [hu, hv, hsx, hsy]
          rfl

/-- The place of a double among the others: its magnitude, with its sign. -/
def rank (x : Float) : Int := if signed x then -(magnitude x : Int) else magnitude x

/-- **Order.** Doubles that are numbers are in the order of their ranks. -/
theorem le_of_rank_le (hx : magnitude x ≤ infinityBits) (hy : magnitude y ≤ infinityBits)
    (h : rank x ≤ rank y) : x ≤ y := by
  have hsign : ∀ z, sign z = if signed z then .negative else .positive := fun _ => rfl
  rw [rank, rank] at h
  cases hsx : signed x with
  | false =>
      cases hsy : signed y with
      | false =>
          refine le_of_positive hy (by rw [hsign, hsx]; rfl) (by rw [hsign, hsy]; rfl) ?_
          simpa [hsx, hsy] using h
      | true =>
          -- a zero stands beside the zero of the other sign
          have hzeros : magnitude x = 0 ∧ magnitude y = 0 := by
            simp only [hsx, hsy, if_true, Bool.false_eq_true, if_false] at h
            omega
          rw [le_iff_compare, unpacked_of_zero hzeros.1, unpacked_of_zero hzeros.2]
          rfl
  | true =>
      cases hsy : signed y with
      | false => exact le_of_opposite hx hy (by rw [hsign, hsx]; rfl) (by rw [hsign, hsy]; rfl)
      | true =>
          refine le_of_negative hx (by rw [hsign, hsx]; rfl) (by rw [hsign, hsy]; rfl) ?_
          simpa [hsx, hsy] using h

end Formulary.Binary64
