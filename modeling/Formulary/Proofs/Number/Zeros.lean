import Formulary.Proofs.Number.Bits

/-!
# Adding to zeros

A sum is rounded, but never so far that a number becomes zero, and numbers that
cancel leave the positive zero. So a sum is the negative zero only when both of
its terms are (`add_ne_negZero`). It follows that a zero in front of a sum can be
moved into the sum (`zero_add_add`), although addition of doubles is not
associative.
-/

namespace Formulary.Binary64

open Float.Model Float.Model.UnpackedFloat

/-- The kind of a double, its sign, mantissa and exponent apart. -/
def unpacked (x : Float) : UnpackedFloat := x.toModel.unpack

/-- The double of a kind, sign, mantissa and exponent that it has room for. -/
def packed (u : UnpackedFloat) : Float := .ofModel (Float.Model.pack u)

theorem packed_unpacked (x : Float) : packed (unpacked x) = x := Float.ofBits_toBits x

theorem add_eq_packed (x y : Float) :
    Float.add x y = packed (UnpackedFloat.add .binary64 (unpacked x) (unpacked y)) := rfl

theorem unpacked_zero : unpacked 0 = .zero .positive := rfl

theorem unpacked_negZero : unpacked negZero = .zero .negative := rfl

/-! ## Room for a mantissa and an exponent -/

/-- Whether a mantissa and an exponent are within the bounds of a double. -/
def Fits : UnpackedFloat → Prop
  | .finite _ mantissa exponent _ => mantissa < 2 ^ 53 ∧ -1074 ≤ exponent
  | _ => True

theorem fits_unpacked (x : Float) : Fits (unpacked x) := by
  show Fits (UnpackedFloat.unpack Format.binary64 x.toBits.toBitVec)
  rw [UnpackedFloat.unpack]
  simp only
  split
  · split <;> trivial
  · next hinfinite =>
      split
      · split
        · trivial
        · next hzero _ =>
            refine ⟨Nat.lt_of_lt_of_le (BitVec.isLt _) (by decide), ?_⟩
            rw [hzero]
            decide
      · next hzero =>
          refine ⟨BitVec.isLt _, ?_⟩
          have hpos : 0 < (@unpackExponent Format.binary64 x.toBits.toBitVec).toNat :=
            Nat.pos_of_ne_zero fun h => hzero (BitVec.eq_of_toNat_eq h)
          have hbias : Format.binary64.exponentBias = 1023 := by decide
          rw [hbias]
          show (-1074 : Int) ≤ _ - (1023 + 52)
          omega

/-- What has a mantissa is not packed as a zero: in a full mantissa the exponent is kept, and any
other is kept itself. -/
theorem pack_finite_ne_zero {sign : Sign} {m : Nat} {e : Int} (hm : 0 < m)
    (h : Fits (.finite sign m e hm)) (other : Sign) :
    UnpackedFloat.pack .binary64 (.finite sign m e hm) ≠ packedZero .binary64 other := by
  obtain ⟨hlt, hge⟩ := h
  intro hzero
  have hexponent := congrArg (fun b => (@unpackExponent Format.binary64 b).toNat) hzero
  have hmantissa := congrArg (fun b => (@unpackMantissa Format.binary64 b).toNat) hzero
  have hbias : Format.binary64.exponentBias = 1023 := by decide
  simp only [packedZero, unpackExponent_packComponents, unpackMantissa_packComponents] at *
  rw [UnpackedFloat.pack] at *
  simp only [hbias] at *
  split at hexponent
  · simp only [packedInfinity, unpackExponent_packComponents] at hexponent
    exact absurd hexponent (by decide)
  · next hsmall =>
      rw [if_neg hsmall] at hmantissa
      split at hexponent
      · simp only [unpackExponent_packComponents, BitVec.toNat_ofNat] at hexponent
        rw [Nat.mod_eq_of_lt (by omega)] at hexponent
        have hbiased : (e + (1023 : Nat) + (52 : Nat)).toNat = 0 := hexponent
        omega
      · next hfull =>
          rw [if_neg hfull] at hmantissa
          have hlog : m.log2 + 1 ≠ 53 := hfull
          have hlow : m < 2 ^ 52 := by
            refine (Nat.log2_lt (Nat.ne_of_gt hm)).mp ?_
            have hle := (Nat.log2_lt (Nat.ne_of_gt hm)).mpr hlt
            omega
          simp only [unpackMantissa_packComponents, BitVec.toNat_ofNat] at hmantissa
          have hzero : m % 2 ^ 52 = 0 := hmantissa
          rw [Nat.mod_eq_of_lt hlow] at hzero
          omega

/-- The negative zero is packed from nothing else. -/
theorem eq_of_packed_eq_negZero {u : UnpackedFloat} (hu : Fits u) (h : packed u = negZero) :
    u = .zero .negative := by
  have hpack : UnpackedFloat.pack .binary64 u = packedZero .binary64 .negative :=
    congrArg (fun x : Float => x.toBits.toBitVec) h
  cases u with
  | notANumber => exact absurd hpack (by decide)
  | infinity sign => cases sign <;> exact absurd hpack (by decide)
  | zero sign =>
      cases sign with
      | negative => rfl
      | positive => exact absurd hpack (by decide)
  | finite sign m e hm => exact absurd hpack (pack_finite_ne_zero hm hu .negative)

/-! ## Rounding -/

theorem mantissa_shiftRight (em : ExtendedMantissa) (n : Nat) :
    (em >>> n).mantissa = em.mantissa / 2 ^ n := by
  induction n with
  | zero => exact (Nat.div_one _).symm
  | succ n ih =>
      show (em >>> n).mantissa / 2 = _
      rw [ih, Nat.div_div_eq_div_mul, Nat.pow_succ]

theorem mantissa_ofMantissaAndAccuracy (m : Nat) (a : Accuracy) :
    (ExtendedMantissa.ofMantissaAndAccuracy m a).mantissa = m := by
  cases a with
  | exact => rfl
  | inexact side => cases side <;> rfl

theorem le_roundedMantissa (em : ExtendedMantissa) : em.mantissa ≤ em.roundedMantissa := by
  rw [ExtendedMantissa.roundedMantissa]
  cases em.accuracy with
  | exact => exact Nat.le_refl _
  | inexact side =>
      cases side with
      | lt => exact Nat.le_refl _
      | eq => exact Nat.le_add_right _ _
      | gt => exact Nat.le_succ _

theorem targetExponent_eq (m : Nat) (e : Int) :
    Format.binary64.targetExponent (totalExponent m e) = max (m.log2 + e - 52) (-1074) := by
  have hbits : Format.binary64.mantissaBits = 53 := by decide
  have hleast : Format.binary64.minExponent = -1074 := by decide
  rw [Format.targetExponent, totalExponent, hbits, hleast]
  congr 1
  omega

/-- Digits are only shifted out of a mantissa that has too many of them. -/
theorem shift_fits {m : Nat} {e : Int} (hm : 0 < m) (he : -1074 ≤ e) :
    0 < m / 2 ^ (Format.binary64.targetExponent (totalExponent m e) - e).toNat ∧
      m / 2 ^ (Format.binary64.targetExponent (totalExponent m e) - e).toNat < 2 ^ 53 := by
  have hle := Nat.log2_self_le (Nat.ne_of_gt hm)
  have hlt := Nat.lt_log2_self (n := m)
  rw [targetExponent_eq]
  rcases Nat.le_total m.log2 52 with hlog | hlog
  · have hshift : (max ((m.log2 : Int) + e - 52) (-1074) - e).toNat = 0 := by omega
    rw [hshift, Nat.pow_zero, Nat.div_one]
    exact ⟨hm, Nat.lt_of_lt_of_le hlt (Nat.pow_le_pow_right (by decide) (by omega))⟩
  · obtain ⟨k, hk⟩ := Nat.exists_eq_add_of_le hlog
    have hshift : (max ((m.log2 : Int) + e - 52) (-1074) - e).toNat = k := by omega
    have hup : m.log2 + 1 = 53 + k := by omega
    rw [hup, Nat.pow_add] at hlt
    rw [hk, Nat.pow_add] at hle
    rw [hshift]
    refine ⟨Nat.div_pos ?_ (Nat.two_pow_pos k), (Nat.div_lt_iff_lt_mul (Nat.two_pow_pos k)).mpr hlt⟩
    exact Nat.le_trans (Nat.le_mul_of_pos_left _ (Nat.two_pow_pos 52)) hle

theorem shiftToTargetExponent_fits {m : Nat} {e : Int} (hm : 0 < m) (he : -1074 ≤ e)
    (a : Accuracy) :
    0 < (shiftToTargetExponent .binary64 m e a).1.mantissa ∧
      (shiftToTargetExponent .binary64 m e a).1.mantissa < 2 ^ 53 ∧
      -1074 ≤ (shiftToTargetExponent .binary64 m e a).2 := by
  obtain ⟨hpos, hlt⟩ := shift_fits hm he
  simp only [shiftToTargetExponent, shiftToExponent, mantissa_shiftRight,
    mantissa_ofMantissaAndAccuracy]
  exact ⟨hpos, hlt, by omega⟩

/-- What is rounded is still there afterwards, and there is room for it. -/
theorem roundWithAccuracy_fits (sign : Sign) {m : Nat} {e : Int} (hm : 0 < m) (he : -1074 ≤ e)
    (a : Accuracy) :
    ∃ m' e' hm', roundWithAccuracy .binary64 sign m e a = .finite sign m' e' hm' ∧
      Fits (.finite sign m' e' hm') := by
  obtain ⟨hpos, -, hge⟩ := shiftToTargetExponent_fits hm he a
  -- rounding up may make the mantissa too long by one digit, which a second shift takes off
  obtain ⟨hpos', hlt', hge'⟩ :=
    shiftToTargetExponent_fits (Nat.lt_of_lt_of_le hpos (le_roundedMantissa _)) hge .exact
  rw [roundWithAccuracy]
  simp only [dif_neg (Nat.ne_of_gt hpos')]
  exact ⟨_, _, hpos', rfl, hlt', hge'⟩

theorem round_fits (sign : Sign) {m : Nat} {e : Int} (hm : 0 < m) (he : -1074 ≤ e) :
    ∃ m' e' hm', UnpackedFloat.round .binary64 sign m e = .finite sign m' e' hm' ∧
      Fits (.finite sign m' e' hm') := by
  have htarget := targetExponent_eq m e
  unfold UnpackedFloat.round
  simp only [decreaseExponent]
  refine roundWithAccuracy_fits sign ?_ (by omega) .exact
  rw [Nat.shiftLeft_eq]
  exact Nat.mul_pos hm (Nat.two_pow_pos _)

/-! ## Sums -/

theorem normalize_fits {n e : Int} (he : -1074 ≤ e) :
    Fits (UnpackedFloat.normalize .binary64 n e .positive) ∧
      UnpackedFloat.normalize .binary64 n e .positive ≠ .zero .negative := by
  unfold UnpackedFloat.normalize
  split
  · next hlt =>
      rw [Int.compare_eq_lt] at hlt
      obtain ⟨m, e', hm, hround, hfits⟩ := round_fits .negative (m := (-n).toNat) (by omega) he
      rw [hround]
      exact ⟨hfits, by intro h; cases h⟩
  · exact ⟨trivial, by intro h; cases h⟩
  · next hgt =>
      rw [Int.compare_eq_gt] at hgt
      obtain ⟨m, e', hm, hround, hfits⟩ := round_fits .positive (m := n.toNat) (by omega) he
      rw [hround]
      exact ⟨hfits, by intro h; cases h⟩

/-- A sum has room, and it is the negative zero only if its first term is. -/
theorem add_fits {u v : UnpackedFloat} (hu : Fits u) (hv : Fits v) :
    Fits (UnpackedFloat.add .binary64 u v) ∧
      (UnpackedFloat.add .binary64 u v = .zero .negative → u = .zero .negative) := by
  cases u with
  | notANumber => exact ⟨trivial, by intro h; cases h⟩
  | infinity s =>
      cases v with
      | infinity t =>
          rw [UnpackedFloat.add]
          split <;> exact ⟨trivial, by intro h; cases h⟩
      | _ => exact ⟨trivial, by intro h; cases h⟩
  | zero s =>
      cases v with
      | zero t => cases s <;> cases t <;> exact ⟨trivial, by intro h; cases h <;> rfl⟩
      | finite t m e hm => exact ⟨hv, by intro h; cases h⟩
      | _ => exact ⟨trivial, by intro h; cases h⟩
  | finite s m e hm =>
      cases v with
      | finite t n f hn =>
          have he : -1074 ≤ min e f := Int.le_min.mpr ⟨hu.2, hv.2⟩
          obtain ⟨hfits, hne⟩ := normalize_fits (n := s.apply (decreaseExponent m e (min e f)).1 +
            t.apply (decreaseExponent n f (min e f)).1) he
          exact ⟨hfits, fun h => absurd h hne⟩
      | zero t => exact ⟨hu, by intro h; cases h⟩
      | _ => exact ⟨trivial, by intro h; cases h⟩

/-- **Sums.** A sum is the negative zero only if its first term is. -/
theorem add_ne_negZero {x y : Float} (hx : x ≠ negZero) : Float.add x y ≠ negZero := by
  intro h
  obtain ⟨hfits, hzero⟩ := add_fits (fits_unpacked x) (fits_unpacked y)
  rw [add_eq_packed] at h
  have hu := hzero (eq_of_packed_eq_negZero hfits h)
  refine hx ?_
  rw [← packed_unpacked x, hu, ← unpacked_negZero, packed_unpacked]

theorem negZero_add (x : Float) : Float.add negZero x = x := by
  rw [add_eq_packed, unpacked_negZero]
  suffices h : UnpackedFloat.add .binary64 (.zero .negative) (unpacked x) = unpacked x by
    rw [h, packed_unpacked]
  cases unpacked x with
  | zero sign => cases sign <;> rfl
  | _ => rfl

theorem zero_add {x : Float} (hx : x ≠ negZero) : Float.add 0 x = x := by
  have hu : unpacked x ≠ .zero .negative := by
    intro h
    refine hx ?_
    rw [← packed_unpacked x, h, ← unpacked_negZero, packed_unpacked]
  rw [add_eq_packed, unpacked_zero]
  suffices h : UnpackedFloat.add .binary64 (.zero .positive) (unpacked x) = unpacked x by
    rw [h, packed_unpacked]
  cases hkind : unpacked x with
  | zero sign =>
      cases sign with
      | negative => exact absurd hkind hu
      | positive => rfl
  | _ => rfl

/-- **Zero in front.** It does not matter whether the zero is added to the first term or to the
sum. -/
theorem zero_add_add (x y : Float) :
    Float.add (Float.add 0 x) y = Float.add 0 (Float.add x y) := by
  by_cases hx : x = negZero
  · have hzero : Float.add 0 negZero = 0 := by decide
    rw [hx, hzero, negZero_add]
  · rw [zero_add hx, zero_add (add_ne_negZero hx)]

end Formulary.Binary64
