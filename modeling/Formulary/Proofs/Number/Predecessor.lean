import Formulary.Proofs.Number.Order

/-!
# A positive integer less one

The double of a positive integer less one is that integer less one, rounded. It is not
negative, and it is again an integer: below `2 ^ 53` nothing is rounded off, and from there
on no double has a fraction.
-/

namespace Formulary.Binary64

open Number (power)
open Float.Model Float.Model.UnpackedFloat

/-- A double that is a whole number and at least one. -/
structure IsPositiveInteger (n : Float) : Prop where
  integral : isIntegral n = true
  positive : 1 ≤ (parts n).intValue

/-! ## Full mantissas -/

/-- A mantissa of all its binary digits, above the least exponent. -/
structure IsFull (m : Nat) (e : Int) : Prop where
  mantissa_ge : power 2 52 ≤ m
  mantissa_lt : m < power 2 53
  exponent_ge : -1074 ≤ e

/-- Unless it is too large, what has a full mantissa keeps it and its exponent. -/
theorem parts_packed {m : Nat} {e : Int} (hm : 0 < m) (h : IsFull m e)
    (hfinite : (packed (.finite .positive m e hm)).isFinite = true) :
    parts (packed (.finite .positive m e hm)) = ⟨false, m, e⟩ := by
  have hbits : (packed (.finite .positive m e hm)).toBits.toBitVec =
      UnpackedFloat.pack .binary64 (.finite .positive m e hm) := rfl
  have hbias : Format.binary64.exponentBias = 1023 := by decide
  have hlog : m.log2 + 1 = Format.binary64.mantissaBits := by
    have hne : m ≠ 0 := Nat.ne_of_gt hm
    rw [(Nat.log2_eq_iff hne).mpr ⟨h.mantissa_ge, h.mantissa_lt⟩]
    rfl
  have hge := h.exponent_ge
  have hle := h.mantissa_ge
  have hlt := h.mantissa_lt
  suffices hmagnitude : magnitude (packed (.finite .positive m e hm)) =
      (e + 1074).toNat * power 2 52 + m by
    rw [parts_of_magnitude hle hlt hge hmagnitude, signed_packed_finite]
  have hfields := magnitude_eq_fields (packed (.finite .positive m e hm))
  rw [isFinite_iff, hfields] at hfinite
  rw [hfields]
  rw [hbits, UnpackedFloat.pack] at hfinite ⊢
  simp only [hbias] at hfinite ⊢
  split
  · next hlarge =>
      rw [if_pos hlarge] at hfinite
      simp only [packedInfinity, unpackExponent_packComponents,
        unpackMantissa_packComponents] at hfinite
      exact absurd hfinite (by decide)
  · next hsmall =>
      simp only [unpackExponent_packComponents, unpackMantissa_packComponents,
        BitVec.toNat_ofNat]
      have hexponent : (e + (1023 : Nat) + (52 : Nat)).toNat < 2 ^ 11 := by omega
      rw [Nat.mod_eq_of_lt hexponent, power_two_52]
      have h53 : power 2 53 = 9007199254740992 := rfl
      rw [power_two_52] at hle
      rw [h53] at hlt
      omega

/-- A double with a full mantissa is unpacked as its parts. -/
theorem unpacked_eq {x : Float} (hfinite : x.isFinite = true) (hpositive : signed x = false)
    (hfull : power 2 52 ≤ (parts x).mantissa) :
    ∃ hm, unpacked x = .finite .positive (parts x).mantissa (parts x).exponent hm := by
  have hpos : 0 < magnitude x := by
    have hmantissa : 0 < power 2 52 := Number.power_pos (by decide) 52
    rw [magnitude_eq]
    omega
  have hsign : sign x = .positive := by rw [sign, hpositive]; rfl
  rw [← hsign]
  exact unpacked_of_finite hpos ((isFinite_iff x).mp hfinite)

/-! ## Shifting and rounding -/

/-- Zeros are shifted out without a trace. -/
theorem shiftRight_mul (m k : Nat) :
    (⟨m * 2 ^ k, false, false⟩ : ExtendedMantissa) >>> k = ⟨m, false, false⟩ := by
  induction k generalizing m with
  | zero => 
    rw [Nat.pow_zero, Nat.mul_one]
    rfl
  | succ k ih =>
      show ((⟨m * 2 ^ (k + 1), false, false⟩ : ExtendedMantissa) >>> k).shiftRightOne = _
      have hsplit : m * 2 ^ (k + 1) = m * 2 * 2 ^ k := by
        rw [Nat.pow_succ, Nat.mul_assoc, Nat.mul_comm 2]
      rw [hsplit, ih, ExtendedMantissa.shiftRightOne]
      simp

theorem shiftToTargetExponent_eq {m : Nat} {e : Int} (hlog : 52 ≤ m.log2) (he : -1074 ≤ e)
    (a : Accuracy) : shiftToTargetExponent .binary64 m e a =
      (ExtendedMantissa.ofMantissaAndAccuracy m a >>> (m.log2 - 52),
        e + (m.log2 - 52 : Nat)) := by
  have hshift : (Format.binary64.targetExponent (totalExponent m e) - e).toNat = m.log2 - 52 := by
    rw [targetExponent_eq]
    omega
  rw [shiftToTargetExponent, shiftToExponent]
  simp only [hshift]

/-- A mantissa with more digits than there is room for is left with as many as there is. -/
theorem div_full {m : Nat} (hlog : 52 ≤ m.log2) :
    power 2 52 ≤ m / 2 ^ (m.log2 - 52) ∧ m / 2 ^ (m.log2 - 52) < power 2 53 := by
  have hne : m ≠ 0 := by
    rintro rfl
    exact absurd hlog (by decide)
  have hle := Nat.log2_self_le hne
  have hlt := Nat.lt_log2_self (n := m)
  obtain ⟨k, hk⟩ := Nat.exists_eq_add_of_le hlog
  have hdown : m.log2 - 52 = k := by omega
  have hup : m.log2 + 1 = 53 + k := by omega
  rw [hdown]
  rw [hk, Nat.pow_add] at hle
  rw [hup, Nat.pow_add] at hlt
  exact ⟨(Nat.le_div_iff_mul_le (Nat.two_pow_pos k)).mpr hle,
    (Nat.div_lt_iff_lt_mul (Nat.two_pow_pos k)).mpr hlt⟩

/-- What has enough digits is rounded to a full mantissa, and it is cut at its end only if it has
to be. -/
theorem roundWithAccuracy_full (s : Sign) {m : Nat} {e : Int} (hlog : 52 ≤ m.log2)
    (he : -1074 ≤ e) :
    ∃ m' e' hm, roundWithAccuracy .binary64 s m e .exact = .finite s m' e' hm ∧ IsFull m' e' ∧
      e + (m.log2 - 52 : Nat) ≤ e' ∧
      (∀ k, m = k * 2 ^ (m.log2 - 52) → m' = k ∧ e' = e + (m.log2 - 52 : Nat)) := by
  obtain ⟨hge, hlt⟩ := div_full hlog
  have hmantissa : (ExtendedMantissa.ofMantissaAndAccuracy m .exact >>> (m.log2 - 52)).mantissa =
      m / 2 ^ (m.log2 - 52) := by
    rw [mantissa_shiftRight, mantissa_ofMantissaAndAccuracy]
  generalize hr : (ExtendedMantissa.ofMantissaAndAccuracy m .exact >>>
    (m.log2 - 52)).roundedMantissa = r
  have hrge : power 2 52 ≤ r := by
    rw [← hr]
    exact Nat.le_trans (hmantissa ▸ hge) (le_roundedMantissa _)
  have hrpos : r ≠ 0 := Nat.ne_of_gt (Nat.lt_of_lt_of_le (Number.power_pos (by decide) 52) hrge)
  have hrlog : 52 ≤ r.log2 := (Nat.le_log2 hrpos).mpr hrge
  obtain ⟨hge', hlt'⟩ := div_full hrlog
  have hpos : 0 < r / 2 ^ (r.log2 - 52) :=
    Nat.lt_of_lt_of_le (Number.power_pos (by decide) 52) hge'
  refine ⟨r / 2 ^ (r.log2 - 52), e + (m.log2 - 52 : Nat) + (r.log2 - 52 : Nat), hpos, ?_,
    ⟨hge', hlt', by omega⟩, by omega, ?_⟩
  · rw [roundWithAccuracy, shiftToTargetExponent_eq hlog he]
    have hnext : -1074 ≤ e + (m.log2 - 52 : Nat) := by omega
    simp only [hr, shiftToTargetExponent_eq hrlog hnext, mantissa_shiftRight,
      mantissa_ofMantissaAndAccuracy, dif_neg (Nat.ne_of_gt hpos)]
  · intro k hk
    -- a full mantissa with nothing behind it is not rounded
    have hrk : r = k := by
      rw [← hr]
      generalize m.log2 - 52 = d at hk
      rw [hk]
      exact congrArg ExtendedMantissa.roundedMantissa (shiftRight_mul k d)
    have hzero : r.log2 - 52 = 0 := by
      have hdiv : m / 2 ^ (m.log2 - 52) = r :=
        Nat.div_eq_of_eq_mul_left (Nat.two_pow_pos _) (hrk ▸ hk)
      have hfew := (Nat.log2_lt hrpos).mpr (hdiv ▸ hlt)
      omega
    rw [hzero, hrk, Nat.pow_zero, Nat.div_one]
    exact ⟨rfl, Int.add_zero _⟩

theorem round_units {k : Nat} (hk : 0 < k) :
    ∃ m e hm, UnpackedFloat.round .binary64 .positive (k * 2 ^ 52) (-52) =
        .finite .positive m e hm ∧ IsFull m e ∧ (Parts.mk false m e).isIntegral = true := by
  have hne : k * 2 ^ 52 ≠ 0 := Nat.ne_of_gt (Nat.mul_pos hk (Nat.two_pow_pos 52))
  have hlog : (k * 2 ^ 52).log2 = k.log2 + 52 := by
    have hk' := Nat.ne_of_gt hk
    refine (Nat.log2_eq_iff hne).mpr ⟨?_, ?_⟩
    · rw [Nat.pow_add]
      exact Nat.mul_le_mul_right _ (Nat.log2_self_le hk')
    · rw [Nat.add_right_comm, Nat.pow_add]
      exact Nat.mul_lt_mul_of_pos_right Nat.lt_log2_self (Nat.two_pow_pos 52)
  have hround : UnpackedFloat.round .binary64 .positive (k * 2 ^ 52) (-52) =
      roundWithAccuracy .binary64 .positive (k * 2 ^ 52) (-52) .exact := by
    have hzero : (-52 - Format.binary64.targetExponent (totalExponent (k * 2 ^ 52) (-52))).toNat =
        0 := by
      rw [targetExponent_eq, hlog]
      omega
    rw [UnpackedFloat.round, decreaseExponent, hzero]
    rfl
  obtain ⟨m, e, hm, hfinite, hfull, hge, hexact⟩ :=
    roundWithAccuracy_full .positive (m := k * 2 ^ 52) (e := -52) (by omega) (by omega)
  refine ⟨m, e, hm, hround.trans hfinite, hfull, ?_⟩
  rw [hlog, Nat.add_sub_cancel] at hge hexact
  rw [Parts.isIntegral, Bool.or_eq_true]
  rcases Nat.le_total 52 k.log2 with hlarge | hsmall
  · exact .inl (decide_eq_true (by dsimp only; omega))
  · -- with fewer digits there is nothing to round
    obtain ⟨rfl, rfl⟩ := hexact (k * 2 ^ (52 - k.log2)) (by
      rw [Nat.mul_assoc, ← Nat.pow_add, Nat.sub_add_cancel hsmall])
    have hback : (-(-52 + (k.log2 : Int))).toNat = 52 - k.log2 := by omega
    dsimp only
    rw [hback]
    exact .inr (beq_iff_eq.mpr (Nat.mul_mod_left _ _))

/-! ## One less -/

variable {n : Float}

theorem unpacked_one : unpacked 1 = .finite .positive (2 ^ 52) (-52) (Nat.two_pow_pos 52) := by
  rfl

theorem IsPositiveInteger.isFinite (h : IsPositiveInteger n) : n.isFinite = true :=
  ((isIntegral_iff n).mp h.integral).1

/-- A positive integer has a full mantissa and no digit behind the last one of its fraction. -/
theorem IsPositiveInteger.full (h : IsPositiveInteger n) :
    signed n = false ∧ 0 < (parts n).natValue ∧ power 2 52 ≤ (parts n).mantissa ∧
      -52 ≤ (parts n).exponent := by
  obtain ⟨hfinite, hintegral⟩ := (isIntegral_iff n).mp h.integral
  have hvalue := Parts.natValue_mul hintegral
  have hpositive := h.positive
  obtain ⟨hlt, -, hfull⟩ := parts_bounds n
  have hsigned : signed n = false ∧ 0 < (parts n).natValue := by
    rw [Parts.intValue, parts_negative] at hpositive
    cases hs : signed n with
    | true =>
        rw [hs, if_pos rfl] at hpositive
        omega
    | false =>
        rw [hs, if_neg (by decide)] at hpositive
        exact ⟨rfl, by omega⟩
  have hge : -52 ≤ (parts n).exponent := by
    by_contra hlow
    have hup : (parts n).exponent.toNat = 0 := by omega
    have hdown : power 2 53 ≤ power 2 (-(parts n).exponent).toNat :=
      power_monotone (by decide) (by omega)
    rw [hup, Number.power_zero, Nat.mul_one] at hvalue
    have hmul := Nat.le_mul_of_pos_left (power 2 (-(parts n).exponent).toNat) hsigned.2
    omega
  exact ⟨hsigned.1, hsigned.2, hfull.resolve_right (by omega), hge⟩

/-- An integral number is the integer that it is. -/
theorem Parts.toRat_eq_intValue {p : Parts} (h : p.isIntegral = true) : p.toRat = p.intValue := by
  have hden : power 2 (-p.exponent).toNat ≠ 0 := Nat.ne_of_gt (Number.power_pos (by decide) _)
  have hmagnitude : mkRat (p.mantissa * power 2 p.exponent.toNat) (power 2 (-p.exponent).toNat) =
      p.natValue := by
    rw [← Nat.cast_mul, ← natValue_mul h, Rat.mkRat_eq_div]
    push_cast
    exact mul_div_cancel_right₀ _ (by exact_mod_cast hden)
  rw [toRat, hmagnitude, intValue]
  cases p.negative <;> simp

/-- A positive integer is the rational that it is. -/
theorem IsPositiveInteger.toRat_eq (h : IsPositiveInteger n) :
    (parts n).toRat = (parts n).natValue := by
  rw [Parts.toRat_eq_intValue ((isIntegral_iff n).mp h.integral).2, Parts.intValue, parts_negative,
    h.full.1, if_neg (by decide), Int.cast_natCast]

/-- The units of the last place that a positive integer and one have in common. -/
theorem mantissa_shiftLeft (hintegral : (parts n).isIntegral = true)
    (hge : -52 ≤ (parts n).exponent) :
    (parts n).mantissa <<< ((parts n).exponent - -52).toNat = (parts n).natValue * 2 ^ 52 := by
  have hvalue := Parts.natValue_mul hintegral
  rw [Nat.shiftLeft_eq]
  rcases Int.le_total 0 (parts n).exponent with hup | hdown
  · obtain ⟨k, hk⟩ := Int.eq_ofNat_of_zero_le hup
    have hshift : ((k : Int) - -52).toNat = k + 52 := by omega
    have hzero : (-(k : Int)).toNat = 0 := by omega
    rw [hk, hzero, Number.power_zero, Nat.mul_one, Int.toNat_natCast] at hvalue
    rw [hk, hshift, hvalue, Nat.pow_add, Nat.mul_assoc]
    rfl
  · obtain ⟨k, hk⟩ := Int.eq_ofNat_of_zero_le (Int.neg_nonneg_of_nonpos hdown)
    have hzero : (parts n).exponent.toNat = 0 := by omega
    have hshift : ((parts n).exponent - -52).toNat = 52 - k := by omega
    rw [hk, hzero, Number.power_zero, Nat.mul_one, Int.toNat_natCast] at hvalue
    have hsplit : 2 ^ 52 = power 2 k * 2 ^ (52 - k) := by
      rw [← Nat.pow_sub_mul_pow 2 (show k ≤ 52 by omega), Nat.mul_comm]
      rfl
    rw [hshift, ← hvalue, hsplit, Nat.mul_assoc]

theorem sub_one_eq (h : IsPositiveInteger n) :
    Float.sub n 1 = packed (UnpackedFloat.normalize .binary64
      (((parts n).natValue - 1) * 2 ^ 52 : Nat) (-52) .positive) := by
  obtain ⟨hsigned, hpos, hfull, hge⟩ := h.full
  obtain ⟨hfinite, hintegral⟩ := (isIntegral_iff n).mp h.integral
  obtain ⟨hm, hunpacked⟩ := unpacked_eq hfinite hsigned hfull
  have hsub : Float.sub n 1 = packed (UnpackedFloat.sub .binary64 (unpacked n) (unpacked 1)) := rfl
  have hless : Sign.positive.apply (((parts n).natValue * 2 ^ 52 : Nat) : Int) -
      Sign.positive.apply ((2 ^ 52 : Nat) : Int) =
      (((parts n).natValue - 1) * 2 ^ 52 : Nat) := by
    rw [Sign.apply, Sign.apply, Nat.sub_mul, Nat.one_mul]
    omega
  rw [hsub, hunpacked, unpacked_one, UnpackedFloat.sub]
  simp only [Int.min_eq_right hge, decreaseExponent, mantissa_shiftLeft hintegral hge]
  exact congrArg (fun u => packed (UnpackedFloat.normalize .binary64 u (-52) .positive)) hless

/-- **One less.** A positive integer less one is not negative, and it is an integer if it is
finite. -/
theorem sub_one (h : IsPositiveInteger n) :
    signed (Float.sub n 1) = false ∧
      ((Float.sub n 1).isFinite = true → isIntegral (Float.sub n 1) = true) := by
  rw [sub_one_eq h]
  rcases Nat.eq_zero_or_pos ((parts n).natValue - 1) with hzero | hpos
  · rw [hzero]
    decide +kernel
  · obtain ⟨m, e, hm, hround, hfull, hintegral⟩ := round_units hpos
    have hnormal : UnpackedFloat.normalize .binary64
        (((parts n).natValue - 1) * 2 ^ 52 : Nat) (-52) .positive =
        .finite .positive m e hm := by
      have hgt : 0 < ((parts n).natValue - 1) * 2 ^ 52 := Nat.mul_pos hpos (Nat.two_pow_pos 52)
      rw [UnpackedFloat.normalize, Int.compare_eq_gt.mpr (by omega)]
      exact hround
    rw [hnormal]
    refine ⟨signed_packed_finite hm, fun hfinite => (isIntegral_iff _).mpr ⟨hfinite, ?_⟩⟩
    rw [parts_packed hm hfull hfinite]
    exact hintegral

end Formulary.Binary64
