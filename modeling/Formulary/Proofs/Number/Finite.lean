import Formulary.Proofs.Number.Counts
import Formulary.Proofs.Number.Zeros

/-!
# Operations on finite doubles

A double is finite, infinite, or no number. The basic operations on finite doubles never
make a non-number, except for the quotient of two zeros: what is rounded stays a zero or
finite, and packing it can at worst make it infinite. And what is no number stays so.
-/

namespace Formulary.Binary64

open Float.Model Float.Model.UnpackedFloat

/-! ## Finite or infinite -/

theorem isFinite_eq (x : Float) : x.isFinite = (unpacked x).isFinite := rfl

theorem isInf_eq (x : Float) : x.isInf = (unpacked x).isInf := rfl

theorem isNaN_eq (x : Float) : x.isNaN = (unpacked x).isNaN := rfl

/-- What has an exponent below the largest or no mantissa is a number. -/
theorem unpack_ne_notANumber {b : BitVec 64}
    (h : @unpackExponent Format.binary64 b ≠ -1#11 ∨ @unpackMantissa Format.binary64 b = 0#52) :
    UnpackedFloat.unpack Format.binary64 b ≠ .notANumber := by
  rw [UnpackedFloat.unpack]
  simp only
  split
  · next hones =>
      rw [if_pos (h.resolve_left (not_not_intro hones))]
      intro hnan
      cases hnan
  · split
    · split <;> intro hnan <;> cases hnan
    · intro hnan
      cases hnan

/-- Packing makes no non-number. -/
theorem unpacked_packed_ne {u : UnpackedFloat} (h : u ≠ .notANumber) :
    unpacked (packed u) ≠ .notANumber := by
  refine unpack_ne_notANumber (b := UnpackedFloat.pack Format.binary64 u) ?_
  cases u with
  | notANumber => exact absurd rfl h
  | infinity s => exact .inr (by simp [UnpackedFloat.pack, packedInfinity])
  | zero s => exact .inr (by simp [UnpackedFloat.pack, packedZero])
  | finite s m e hm =>
      rw [UnpackedFloat.pack]
      simp only
      split
      · exact .inr (by simp [packedInfinity])
      · next hsmall =>
          left
          split
          · rw [unpackExponent_packComponents, ne_eq, ← BitVec.toNat_inj, BitVec.toNat_ofNat]
            have hones : (-1#11).toNat = 2047 := rfl
            have hbits : 2 ^ Format.binary64.exponentBits = 2048 := rfl
            rw [hones, hbits, Nat.mod_eq_of_lt (by omega)]
            omega
          · rw [unpackExponent_packComponents]
            decide

theorem isFinite_or_isInf {x : Float} (h : unpacked x ≠ .notANumber) :
    x.isFinite = true ∨ x.isInf = true := by
  rw [isFinite_eq, isInf_eq]
  cases hu : unpacked x with
  | notANumber => exact absurd hu h
  | infinity s => exact .inr rfl
  | zero s => exact .inl rfl
  | finite s m e hm => exact .inl rfl

theorem packed_isFinite_or_isInf {u : UnpackedFloat} (h : u ≠ .notANumber) :
    (packed u).isFinite = true ∨ (packed u).isInf = true :=
  isFinite_or_isInf (unpacked_packed_ne h)

theorem isFinite_or_isInf_of_not_isNaN {x : Float} (h : x.isNaN = false) :
    x.isFinite = true ∨ x.isInf = true := by
  refine isFinite_or_isInf fun hnan => ?_
  rw [isNaN_eq, hnan] at h
  cases h

/-! ## Operations -/

theorem roundWithAccuracy_ne (s : Sign) (m : Nat) (e : Int) (a : Accuracy) :
    roundWithAccuracy .binary64 s m e a ≠ .notANumber := by
  rw [roundWithAccuracy]
  simp only
  split <;> intro h <;> cases h

theorem normalize_ne (n e : Int) (s : Sign) :
    UnpackedFloat.normalize .binary64 n e s ≠ .notANumber := by
  have hround : ∀ t m e, UnpackedFloat.round .binary64 t m e ≠ .notANumber := by
    intro t m e
    rw [UnpackedFloat.round]
    exact roundWithAccuracy_ne _ _ _ _
  unfold UnpackedFloat.normalize
  split
  · exact hround _ _ _
  · intro h; cases h
  · exact hround _ _ _

variable {x y : Float}

theorem unpacked_of_isFinite (hx : x.isFinite = true) :
    (∃ s, unpacked x = .zero s) ∨ ∃ s m e hm, unpacked x = .finite s m e hm := by
  rw [isFinite_eq] at hx
  cases hu : unpacked x with
  | notANumber => rw [hu] at hx; cases hx
  | infinity s => rw [hu] at hx; cases hx
  | zero s => exact .inl ⟨s, rfl⟩
  | finite s m e hm => exact .inr ⟨s, m, e, hm, rfl⟩

/-- An operation makes no non-number of finite operands, if it makes none of zeros and of what has
a mantissa. -/
theorem isFinite_or_isInf_op (op : UnpackedFloat → UnpackedFloat → UnpackedFloat)
    (hx : x.isFinite = true) (hy : y.isFinite = true)
    (hzeros : ∀ s t, unpacked x = .zero s → unpacked y = .zero t →
      op (.zero s) (.zero t) ≠ .notANumber)
    (hleft : ∀ s t n f hn, op (.zero s) (.finite t n f hn) ≠ .notANumber)
    (hright : ∀ s m e hm t, unpacked y = .zero t → op (.finite s m e hm) (.zero t) ≠ .notANumber)
    (hfinite : ∀ s m e hm t n f hn, op (.finite s m e hm) (.finite t n f hn) ≠ .notANumber) :
    (packed (op (unpacked x) (unpacked y))).isFinite = true ∨
      (packed (op (unpacked x) (unpacked y))).isInf = true := by
  refine packed_isFinite_or_isInf ?_
  rcases unpacked_of_isFinite hx with ⟨s, hs⟩ | ⟨s, m, e, hm, hs⟩
  · rcases unpacked_of_isFinite hy with ⟨t, ht⟩ | ⟨t, n, f, hn, ht⟩
    · rw [hs, ht]; exact hzeros s t hs ht
    · rw [hs, ht]; exact hleft s t n f hn
  · rcases unpacked_of_isFinite hy with ⟨t, ht⟩ | ⟨t, n, f, hn, ht⟩
    · rw [hs, ht]; exact hright s m e hm t ht
    · rw [hs, ht]; exact hfinite s m e hm t n f hn

theorem isFinite_or_isInf_add (hx : x.isFinite = true) (hy : y.isFinite = true) :
    (Float.add x y).isFinite = true ∨ (Float.add x y).isInf = true := by
  refine isFinite_or_isInf_op (UnpackedFloat.add .binary64) hx hy ?_ ?_ ?_ ?_
  · intro s t _ _
    rw [UnpackedFloat.add]
    split <;> intro h <;> cases h
  · intro s t n f hn h; cases h
  · intro s m e hm t _ h; cases h
  · intro s m e hm t n f hn
    rw [UnpackedFloat.add]
    exact normalize_ne _ _ _

theorem isFinite_or_isInf_sub (hx : x.isFinite = true) (hy : y.isFinite = true) :
    (Float.sub x y).isFinite = true ∨ (Float.sub x y).isInf = true := by
  refine isFinite_or_isInf_op (UnpackedFloat.sub .binary64) hx hy ?_ ?_ ?_ ?_
  · intro s t _ _
    rw [UnpackedFloat.sub]
    split <;> intro h <;> cases h
  · intro s t n f hn h; cases h
  · intro s m e hm t _ h; cases h
  · intro s m e hm t n f hn
    rw [UnpackedFloat.sub]
    exact normalize_ne _ _ _

theorem isFinite_or_isInf_mul (hx : x.isFinite = true) (hy : y.isFinite = true) :
    (Float.mul x y).isFinite = true ∨ (Float.mul x y).isInf = true := by
  refine isFinite_or_isInf_op (UnpackedFloat.mul .binary64) hx hy ?_ ?_ ?_ ?_
  · intro s t _ _ h; cases h
  · intro s t n f hn h; cases h
  · intro s m e hm t _ h; cases h
  · intro s m e hm t n f hn
    rw [UnpackedFloat.mul]
    exact roundWithAccuracy_ne _ _ _ _

/-- A double that is no zero is not unpacked as one. -/
theorem unpacked_ne_zero (hy : (y == 0) = false) (s : Sign) : unpacked y ≠ .zero s := by
  intro h
  have hpacked := packed_unpacked y
  rw [h] at hpacked
  rw [← hpacked] at hy
  cases s <;> exact absurd hy (by decide)

theorem isFinite_or_isInf_div (hx : x.isFinite = true) (hy : y.isFinite = true)
    (hne : (y == 0) = false) :
    (Float.div x y).isFinite = true ∨ (Float.div x y).isInf = true := by
  refine isFinite_or_isInf_op (UnpackedFloat.div .binary64) hx hy ?_ ?_ ?_ ?_
  · intro s t _ ht
    exact absurd ht (unpacked_ne_zero hne t)
  · intro s t n f hn h; cases h
  · intro s m e hm t _ h; cases h
  · intro s m e hm t n f hn
    rw [UnpackedFloat.div]
    exact roundWithAccuracy_ne _ _ _ _

theorem isFinite_or_isInf_neg (hx : x.isFinite = true) :
    (Float.neg x).isFinite = true ∨ (Float.neg x).isInf = true := by
  refine packed_isFinite_or_isInf (u := (unpacked x).neg) ?_
  rcases unpacked_of_isFinite hx with ⟨s, hs⟩ | ⟨s, m, e, hm, hs⟩ <;>
    · rw [hs]
      intro h
      cases h

/-! ## Non-numbers -/

theorem unpacked_of_isNaN (hx : x.isNaN = true) : unpacked x = .notANumber := by
  rw [isNaN_eq] at hx
  cases hu : unpacked x with
  | notANumber => rfl
  | infinity s => rw [hu] at hx; cases hx
  | zero s => rw [hu] at hx; cases hx
  | finite s m e hm => rw [hu] at hx; cases hx

/-- An operation makes a non-number of a non-number, if it does so before it packs its result. -/
theorem isNaN_op (op : UnpackedFloat → UnpackedFloat → UnpackedFloat)
    (hleft : ∀ v, op .notANumber v = .notANumber) (hright : ∀ u, op u .notANumber = .notANumber)
    (h : x.isNaN = true ∨ y.isNaN = true) :
    (packed (op (unpacked x) (unpacked y))).isNaN = true := by
  have hop : op (unpacked x) (unpacked y) = .notANumber := by
    rcases h with hx | hy
    · rw [unpacked_of_isNaN hx, hleft]
    · rw [unpacked_of_isNaN hy, hright]
  rw [hop]
  decide

theorem isNaN_add (h : x.isNaN = true ∨ y.isNaN = true) : (Float.add x y).isNaN = true := by
  refine isNaN_op (UnpackedFloat.add .binary64) (fun _ => rfl) (fun u => ?_) h
  cases u <;> rfl

theorem isNaN_sub (h : x.isNaN = true ∨ y.isNaN = true) : (Float.sub x y).isNaN = true := by
  refine isNaN_op (UnpackedFloat.sub .binary64) (fun _ => rfl) (fun u => ?_) h
  cases u <;> rfl

theorem isNaN_mul (h : x.isNaN = true ∨ y.isNaN = true) : (Float.mul x y).isNaN = true := by
  refine isNaN_op (UnpackedFloat.mul .binary64) (fun _ => rfl) (fun u => ?_) h
  cases u <;> rfl

theorem isNaN_div (h : x.isNaN = true ∨ y.isNaN = true) : (Float.div x y).isNaN = true := by
  refine isNaN_op (UnpackedFloat.div .binary64) (fun _ => rfl) (fun u => ?_) h
  cases u <;> rfl

theorem isNaN_neg (hx : x.isNaN = true) : (Float.neg x).isNaN = true := by
  show (packed (unpacked x).neg).isNaN = true
  rw [unpacked_of_isNaN hx]
  decide

theorem isInf_packed (s : Sign) : (packed (.infinity s)).isInf = true := by
  cases s <;> decide

/-- Infinity divided by a finite number is infinity. -/
theorem isInf_infinity_div (hy : y.isFinite = true) :
    (Float.div negInfinity y).isInf = true := by
  have hinfinity : unpacked negInfinity = .infinity .negative := rfl
  show (packed (UnpackedFloat.div .binary64 (unpacked negInfinity) (unpacked y))).isInf = true
  rcases unpacked_of_isFinite hy with ⟨t, ht⟩ | ⟨t, n, f, hn, ht⟩ <;>
    · rw [hinfinity, ht]
      exact isInf_packed _

/-- Zero times infinity is not a number. -/
theorem isNaN_zero_mul (hx : (x == 0) = true) (hy : y.isInf = true) :
    (Float.mul x y).isNaN = true := by
  have hzero : ∃ s, unpacked x = .zero s := by
    rcases Number.eq_zero_of_beq_zero hx with rfl | rfl
    · exact ⟨_, rfl⟩
    · exact ⟨_, rfl⟩
  have hinfinity : ∃ t, unpacked y = .infinity t := by
    rw [isInf_eq] at hy
    cases hu : unpacked y with
    | infinity t => exact ⟨t, rfl⟩
    | notANumber => rw [hu] at hy; cases hy
    | zero s => rw [hu] at hy; cases hy
    | finite s m e hm => rw [hu] at hy; cases hy
  obtain ⟨s, hs⟩ := hzero
  obtain ⟨t, ht⟩ := hinfinity
  show (packed (UnpackedFloat.mul .binary64 (unpacked x) (unpacked y))).isNaN = true
  rw [hs, ht]
  show (packed .notANumber).isNaN = true
  decide

/-! ## Counts -/

theorem isFinite_or_isInf_ofNat (n : Nat) :
    (ofNat n).isFinite = true ∨ (ofNat n).isInf = true := by
  rcases Nat.lt_or_ge n countLimit with hlt | hge
  · exact .inl (isFinite_ofNat hlt)
  · right
    rw [ofNat, ofRatio_of_countLimit_le false hge]
    decide

theorem ofNat_beq_zero {n : Nat} (hn : n ≠ 0) : (ofNat n == 0) = false := by
  cases hbeq : ofNat n == 0 with
  | false => rfl
  | true =>
      exact absurd (Parts.toRat_of_mantissa_eq_zero (Number.mantissa_of_beq_zero hbeq))
        (toRat_ofNat_ne_zero hn)

end Formulary.Binary64
