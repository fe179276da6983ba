import Formulary.Number.Binary64
import Mathlib

/-!
# The bits of a double

What the status functions and the comparison say of a double is told here by its
magnitude, which is its bit pattern without the sign: finite below infinity, and
zero where it is zero.
-/

namespace Formulary.Binary64

open Number (power)
open Float.Model Float.Model.UnpackedFloat

/-- The bits without the sign. -/
def magnitude (x : Float) : Nat := x.toBits.toNat % signBit

theorem power_two_11 : power 2 11 = 2048 := rfl

theorem power_two_52 : power 2 52 = 4503599627370496 := rfl

theorem power_two_63 : power 2 63 = 9223372036854775808 := rfl

/-! ## The fields of a pattern -/

theorem toNat_unpackMantissa (b : BitVec 64) :
    (@unpackMantissa Format.binary64 b).toNat = b.toNat % power 2 52 := by
  simp only [unpackMantissa, BitVec.toNat_cast, BitVec.extractLsb_toNat]
  rfl

theorem toNat_unpackExponent (b : BitVec 64) :
    (@unpackExponent Format.binary64 b).toNat = b.toNat / power 2 52 % power 2 11 := by
  simp only [unpackExponent, BitVec.toNat_cast, BitVec.extractLsb_toNat, Nat.shiftRight_eq_div_pow]
  rfl

theorem exponent_eq_ones_iff (b : BitVec 64) :
    @unpackExponent Format.binary64 b = -1#11 ↔ infinityBits ≤ b.toNat % signBit := by
  have hones : (-1#11).toNat = 2047 := rfl
  rw [← BitVec.toNat_inj, toNat_unpackExponent, hones, signBit, infinityBits, power_two_11,
    power_two_52, power_two_63]
  omega

/-! ## Doubles and patterns -/

/-- A pattern up to infinity is that of a double. -/
theorem toBits_ofBits {b : UInt64} (h : b.toNat % signBit ≤ infinityBits) :
    (Float.ofBits b).toBits = b := by
  have hvalid : Format.binary64.Valid b.toBitVec := by
    constructor
    intro hexponent hmantissa
    -- a pattern of a non-number lies above infinity
    have he := toNat_unpackExponent b.toBitVec
    have hm := toNat_unpackMantissa b.toBitVec
    have hne : (@unpackMantissa Format.binary64 b.toBitVec).toNat ≠ 0 :=
      fun h => hmantissa (BitVec.eq_of_toNat_eq h)
    rw [hexponent] at he
    have he' : 2047 = b.toNat / power 2 52 % power 2 11 := he
    have hbits : b.toBitVec.toNat = b.toNat := rfl
    simp only [hbits, signBit, infinityBits, power_two_11, power_two_52, power_two_63] at *
    omega
  exact congrArg UInt64.ofBitVec (pack_unpack_of_valid hvalid)

/-- The finite doubles are those below infinity. -/
theorem isFinite_iff (x : Float) : x.isFinite = true ↔ magnitude x < infinityBits := by
  have hones : @unpackExponent Format.binary64 x.toBits.toBitVec = -1#11 ↔
      infinityBits ≤ magnitude x := exponent_eq_ones_iff _
  have hunpack : x.isFinite =
      (UnpackedFloat.unpack Format.binary64 x.toBits.toBitVec).isFinite := rfl
  rw [hunpack, UnpackedFloat.unpack, ← Nat.not_le, ← hones]
  simp only
  split
  · next h => split <;> exact iff_of_false Bool.false_ne_true (not_not_intro h)
  · next h =>
      split
      · split <;> exact iff_of_true rfl h
      · exact iff_of_true rfl h

/-! ## Comparison -/

theorem beq_self_of_isFinite {x : Float} (h : x.isFinite = true) : (x == x) = true := by
  refine Float.beq_self_iff.mpr ?_
  rintro rfl
  exact absurd h (by decide)

/-- Doubles that compare equal are the same, or both are zeros. -/
theorem eq_or_zero_of_beq {x y : Float} (h : (x == y) = true) :
    x = y ∨ magnitude x = 0 ∧ magnitude y = 0 := by
  obtain ⟨-, -, heq | ⟨rfl, rfl⟩ | ⟨rfl, rfl⟩⟩ := Float.beq_iff_ne_nan_and_eq.mp h
  · exact .inl heq
  · exact .inr (by decide)
  · exact .inr (by decide)

end Formulary.Binary64
