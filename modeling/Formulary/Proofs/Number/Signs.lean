import Formulary.Proofs.Number.Finite

/-!
# Signs and absolute values

The sign of a double is its topmost bit, and what it is unpacked as has that sign. A
finite double other than zero has an absolute value that is finite and positive.
-/

namespace Formulary.Binary64

open Number (power)
open Float.Model Float.Model.UnpackedFloat

/-! ## Bits and fields -/

theorem unpackSign_packComponents {S : Format} (s : Sign) (e : BitVec S.exponentBits)
    (m : BitVec S.mantissaBitsWithoutImplicit) :
    unpackSign (packComponents S s e m) = s.toBitVec := by
  refine BitVec.eq_of_getLsbD_eq fun i hi => ?_
  obtain rfl : i = 0 := by omega
  simp [unpackSign, packComponents, BitVec.getLsbD_append, BitVec.getElem_append]

theorem toNat_unpackSign (b : BitVec 64) :
    (@unpackSign Format.binary64 b).toNat = b.toNat / power 2 63 := by
  have hlt := b.isLt
  have hbit : (@unpackSign Format.binary64 b).toNat = b.toNat / power 2 63 % 2 := by
    simp only [unpackSign, BitVec.toNat_cast, BitVec.extractLsb_toNat, Nat.shiftRight_eq_div_pow]
    rfl
  rw [hbit, power_two_63]
  omega

theorem signed_eq (x : Float) :
    signed x = decide (@unpackSign Format.binary64 x.toBits.toBitVec = 1#1) := by
  have hbits : x.toBits.toBitVec.toNat = x.toBits.toNat := rfl
  have hlt := x.toBits.toBitVec.isLt
  have hone : (1#1).toNat = 1 := rfl
  rw [signed, decide_eq_decide, ← BitVec.toNat_inj, toNat_unpackSign, hbits, signBit,
    power_two_63, hone]
  omega

theorem magnitude_eq_fields (x : Float) :
    magnitude x = (@unpackExponent Format.binary64 x.toBits.toBitVec).toNat * power 2 52 +
      (@unpackMantissa Format.binary64 x.toBits.toBitVec).toNat := by
  have hbits : x.toBits.toBitVec.toNat = x.toBits.toNat := rfl
  rw [toNat_unpackExponent, toNat_unpackMantissa, hbits, magnitude, signBit, power_two_11,
    power_two_52, power_two_63]
  omega

/-- The sign of a double as it is unpacked. -/
def sign (x : Float) : Sign := if signed x then .negative else .positive

theorem sign_eq (x : Float) :
    Sign.ofBitVec (@unpackSign Format.binary64 x.toBits.toBitVec) = sign x := by
  rw [sign, signed_eq]
  rcases BitVec.eq_zero_or_eq_one (@unpackSign Format.binary64 x.toBits.toBitVec) with h | h <;>
    rw [h] <;> rfl

theorem sign_of_not_signed {x : Float} (h : signed x = false) :
    Sign.ofBitVec (@unpackSign Format.binary64 x.toBits.toBitVec) = .positive := by
  rw [sign_eq, sign, h]
  rfl

/-- The sign of what is unpacked; a non-number counts as positive. -/
def signOf : UnpackedFloat → Sign
  | .notANumber => .positive
  | .infinity s => s
  | .zero s => s
  | .finite s _ _ _ => s

variable {x : Float}

theorem signOf_unpacked (h : signed x = false) : signOf (unpacked x) = .positive := by
  have hsign := sign_of_not_signed h
  show signOf (UnpackedFloat.unpack Format.binary64 x.toBits.toBitVec) = .positive
  rw [UnpackedFloat.unpack]
  simp only [hsign]
  split
  · split <;> rfl
  · split
    · split <;> rfl
    · rfl

/-! ## Comparison with zero -/

theorem lt_iff_compare {y : Float} : x < y ↔ (unpacked x).compare (unpacked y) = some .lt := by
  constructor
  · intro hlt
    have hbeq : ((unpacked x).compare (unpacked y) == some .lt) = true := of_decide_eq_true hlt
    exact beq_iff_eq.mp hbeq
  · intro hcompare
    have hbeq : ((unpacked x).compare (unpacked y) == some .lt) = true := beq_iff_eq.mpr hcompare
    exact decide_eq_true hbeq

/-- A double without the sign bit is not less than zero. -/
theorem not_lt_zero (h : signed x = false) : ¬ x < 0 := by
  have hsign := signOf_unpacked h
  rw [lt_iff_compare, unpacked_zero]
  cases hu : unpacked x with
  | notANumber => intro hlt; cases hlt
  | infinity s => rw [hu] at hsign; cases hsign; intro hlt; cases hlt
  | zero s => intro hlt; cases hlt
  | finite s m e hm => rw [hu] at hsign; cases hsign; intro hlt; cases hlt

/-- A finite double without the sign bit is positive, unless it is zero. -/
theorem zero_lt (h : signed x = false) (hfinite : x.isFinite = true) (hne : (x == 0) = false) :
    0 < x := by
  have hsign := signOf_unpacked h
  rw [lt_iff_compare, unpacked_zero]
  rcases unpacked_of_isFinite hfinite with ⟨s, hs⟩ | ⟨s, m, e, hm, hs⟩
  · exact absurd hs (unpacked_ne_zero hne s)
  · rw [hs] at hsign ⊢
    cases hsign
    rfl

/-! ## Absolute values -/

theorem signed_packed_finite {m : Nat} {e : Int} (hm : 0 < m) :
    signed (packed (.finite .positive m e hm)) = false := by
  have hbits : (packed (.finite .positive m e hm)).toBits.toBitVec =
      UnpackedFloat.pack .binary64 (.finite .positive m e hm) := rfl
  rw [signed_eq, hbits, UnpackedFloat.pack, decide_eq_false_iff_not]
  simp only
  split
  · rw [packedInfinity, unpackSign_packComponents]
    decide
  · split <;>
      · rw [unpackSign_packComponents]
        decide

/-- The magnitude does not depend on the sign. -/
theorem magnitude_packed_finite (s t : Sign) {m : Nat} {e : Int} (hm : 0 < m) :
    magnitude (packed (.finite s m e hm)) = magnitude (packed (.finite t m e hm)) := by
  have hbits : ∀ s, (packed (.finite s m e hm)).toBits.toBitVec =
      UnpackedFloat.pack .binary64 (.finite s m e hm) := fun _ => rfl
  rw [magnitude_eq_fields, magnitude_eq_fields, hbits, hbits, UnpackedFloat.pack,
    UnpackedFloat.pack]
  simp only
  split
  · simp only [packedInfinity, unpackExponent_packComponents, unpackMantissa_packComponents]
  · split <;> simp only [unpackExponent_packComponents, unpackMantissa_packComponents]

/-- **Absolute values.** Those of finite doubles other than zero are finite and positive. -/
theorem abs_positive (hfinite : x.isFinite = true) (hne : (x == 0) = false) :
    (Float.abs x).isFinite = true ∧ 0 < Float.abs x := by
  rcases unpacked_of_isFinite hfinite with ⟨s, hs⟩ | ⟨s, m, e, hm, hs⟩
  · exact absurd hs (unpacked_ne_zero hne s)
  · have habs : Float.abs x = packed (.finite .positive m e hm) := by
      show packed (unpacked x).abs = _
      rw [hs]
      rfl
    have hmagnitude : magnitude (Float.abs x) = magnitude x := by
      rw [habs, magnitude_packed_finite .positive s, ← hs, packed_unpacked]
    have hfinite' : (Float.abs x).isFinite = true := by
      rw [isFinite_iff, hmagnitude]
      exact (isFinite_iff x).mp hfinite
    refine ⟨hfinite', zero_lt ?_ hfinite' ?_⟩
    · rw [habs]
      exact signed_packed_finite hm
    · cases hzero : Float.abs x == 0 with
      | false => rfl
      | true =>
          have hnothing : magnitude x = 0 := by
            rw [← hmagnitude]
            rcases Number.eq_zero_of_beq_zero hzero with heq | heq <;>
              · rw [heq]
                decide
          rcases eq_of_magnitude_zero hnothing with rfl | rfl <;>
            exact absurd hne (by decide)

end Formulary.Binary64
