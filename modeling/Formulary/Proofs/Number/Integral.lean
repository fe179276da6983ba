import Formulary.Number.Layout
import Formulary.Number.Literal
import Formulary.Proofs.Number.Bits

/-!
# Integral doubles

An integral double is written as an integer in full. Reading that integer finds
the same mantissa and exponent, since both are told by the position of the
leading binary digit, so nothing is rounded; only the sign of a zero is lost.
-/

namespace Formulary.Binary64

open Number (power)

theorem power_monotone {b : Nat} (hb : 0 < b) {j k : Nat} (h : j ≤ k) : power b j ≤ power b k :=
  Nat.pow_le_pow_right hb h

/-! ## The parts of a double -/

/-- The sign of a double is in its topmost bit. -/
def signed (x : Float) : Bool := decide (signBit ≤ x.toBits.toNat)

theorem parts_of_lt {x : Float} (h : magnitude x < power 2 52) :
    parts x = ⟨signed x, magnitude x, -1074⟩ := by
  have hfield : x.toBits.toNat % signBit / power 2 52 = 0 := Nat.div_eq_of_lt h
  have hfraction : x.toBits.toNat % signBit % power 2 52 = magnitude x := Nat.mod_eq_of_lt h
  rw [parts]
  simp only [hfield, hfraction, if_true]
  rfl

theorem parts_of_ge {x : Float} (h : power 2 52 ≤ magnitude x) :
    parts x = ⟨signed x, power 2 52 + magnitude x % power 2 52,
      (magnitude x / power 2 52 : Nat) - 1075⟩ := by
  have hfield : x.toBits.toNat % signBit / power 2 52 ≠ 0 := by
    have hpos := Nat.div_pos h (Number.power_pos (by decide) 52)
    exact Nat.ne_of_gt hpos
  rw [parts]
  simp only [hfield, if_false]
  rfl

theorem parts_negative (x : Float) : (parts x).negative = signed x := rfl

/-- Nothing is smaller than the least exponent allows, and above it the mantissa is full. -/
theorem parts_bounds (x : Float) :
    (parts x).mantissa < power 2 53 ∧ -1074 ≤ (parts x).exponent ∧
      (power 2 52 ≤ (parts x).mantissa ∨ (parts x).exponent = -1074) := by
  have hdouble : power 2 53 = power 2 52 * 2 := Number.power_succ 2 52
  rcases Nat.lt_or_ge (magnitude x) (power 2 52) with h | h
  · rw [parts_of_lt h]
    exact ⟨by dsimp only; omega, Int.le_refl _, .inr rfl⟩
  · have hmod := Nat.mod_lt (magnitude x) (Number.power_pos (b := 2) (by decide) 52)
    have hdiv := Nat.div_pos h (Number.power_pos (b := 2) (by decide) 52)
    rw [parts_of_ge h]
    exact ⟨by dsimp only; omega, by dsimp only; omega, .inl (Nat.le_add_right _ _)⟩

/-- The parts are the magnitude cut in two, the exponent counted from the least one. -/
theorem magnitude_eq (x : Float) :
    magnitude x = ((parts x).exponent + 1074).toNat * power 2 52 + (parts x).mantissa := by
  rcases Nat.lt_or_ge (magnitude x) (power 2 52) with h | h
  · rw [parts_of_lt h]
    show magnitude x = 0 * power 2 52 + magnitude x
    rw [Nat.zero_mul, Nat.zero_add]
  · have hdiv := Nat.div_pos h (Number.power_pos (b := 2) (by decide) 52)
    have hsplit := Nat.div_add_mod (magnitude x) (power 2 52)
    have hbelow : ((magnitude x / power 2 52 : Nat) - 1075 + 1074 : Int).toNat + 1 =
        magnitude x / power 2 52 := by
      omega
    rw [parts_of_ge h]
    dsimp only
    rw [← Nat.add_assoc, ← Nat.succ_mul, Nat.succ_eq_add_one, hbelow, Nat.mul_comm, hsplit]

theorem toBits_toNat (x : Float) :
    x.toBits.toNat = magnitude x + if (parts x).negative then signBit else 0 := by
  have hlt := x.toBits.toNat_lt
  rw [parts_negative, signed, magnitude, signBit, power_two_63]
  by_cases h : 9223372036854775808 ≤ x.toBits.toNat
  · rw [if_pos (decide_eq_true h)]
    omega
  · rw [if_neg (by simpa using h)]
    omega

theorem eq_of_magnitude_zero {x : Float} (h : magnitude x = 0) :
    x = Float.ofBits 0 ∨ x = negZero := by
  have hbits := toBits_toNat x
  rw [h, Nat.zero_add] at hbits
  cases hsign : (parts x).negative with
  | true =>
      right
      rw [hsign, if_pos rfl] at hbits
      have hx : x.toBits = 0x8000000000000000 := UInt64.toNat_inj.mp hbits
      rw [← Float.ofBits_toBits x, hx, negZero]
  | false =>
      left
      rw [hsign, if_neg (by decide)] at hbits
      have hx : x.toBits = 0 := UInt64.toNat_inj.mp hbits
      rw [← Float.ofBits_toBits x, hx]

/-! ## Zeros -/

theorem mantissa_zero : (parts 0).mantissa = 0 := by decide

theorem mantissa_negZero : (parts negZero).mantissa = 0 := by decide

namespace Parts

variable {p : Parts}

theorem isIntegral_of_mantissa_eq_zero (h : p.mantissa = 0) : p.isIntegral = true := by
  rw [isIntegral, h, Nat.zero_mod]
  exact Bool.or_true _

theorem natValue_of_mantissa_eq_zero (h : p.mantissa = 0) : p.natValue = 0 := by
  rw [natValue, h, Nat.zero_mul, Nat.zero_div]

theorem toRat_of_mantissa_eq_zero (h : p.mantissa = 0) : p.toRat = 0 := by
  simp [toRat, h]

end Parts

theorem isIntegral_zero : isIntegral 0 = true := by
  rw [isIntegral, Parts.isIntegral_of_mantissa_eq_zero mantissa_zero]
  decide

theorem isIntegral_negZero : isIntegral negZero = true := by
  rw [isIntegral, Parts.isIntegral_of_mantissa_eq_zero mantissa_negZero]
  decide

/-! ## Rounding what needs no rounding -/

theorem roundDiv_mul (tie : Tie) (m : Nat) {d : Nat} (hd : 0 < d) : roundDiv tie (m * d) d = m := by
  unfold roundDiv
  simp only [Nat.mul_div_cancel m hd, Nat.mul_mod_left]
  rw [if_pos (by omega)]

theorem floorLog2_one {n : Nat} (hn : n ≠ 0) : floorLog2 n 1 = n.log2 := by
  have h : (n.log2 : Int) - (1 : Nat).log2 = n.log2 := by
    rw [show (1 : Nat).log2 = 0 by decide]
    omega
  rw [floorLog2]
  simp only [h]
  have hle : power 2 n.log2 ≤ n := Nat.log2_self_le hn
  rw [if_pos (by simpa using hle)]

theorem ne_zero_of_mantissa {n m : Nat} {q : Int} (hm : power 2 52 ≤ m)
    (h : n * power 2 (-q).toNat = m * power 2 q.toNat) : n ≠ 0 := by
  rintro rfl
  have hm : 0 < m := Nat.lt_of_lt_of_le (Number.power_pos (by decide) 52) hm
  have hpos : 0 < m * power 2 q.toNat := Nat.mul_pos hm (Number.power_pos (by decide) _)
  rw [← h, Nat.zero_mul] at hpos
  exact absurd hpos (Nat.lt_irrefl 0)

/-- The leading binary digit of a number with a full mantissa. -/
theorem log2_of_mantissa {n m : Nat} {q : Int} (hm : power 2 52 ≤ m) (hm' : m < power 2 53)
    (h : n * power 2 (-q).toNat = m * power 2 q.toNat) : (n.log2 : Int) = q + 52 := by
  have hne : n ≠ 0 := ne_zero_of_mantissa hm h
  -- the exponent scales the mantissa up, or takes zeros off its end
  rcases Int.le_total 0 q with hq | hq
  · obtain ⟨k, rfl⟩ := Int.eq_ofNat_of_zero_le hq
    have hn : n = m * power 2 k := by
      have hzero : (-(k : Int)).toNat = 0 := by omega
      simpa [hzero] using h
    have hlog : n.log2 = 52 + k := by
      refine (Nat.log2_eq_iff hne).mpr ⟨?_, ?_⟩
      · show power 2 (52 + k) ≤ n
        rw [hn, Number.power_add]
        exact Nat.mul_le_mul_right _ hm
      · show n < power 2 (52 + k + 1)
        have hexp : 52 + k + 1 = 53 + k := by omega
        rw [hn, hexp, Number.power_add]
        exact Nat.mul_lt_mul_of_pos_right hm' (Number.power_pos (by decide) k)
    omega
  · obtain ⟨k, hk⟩ := Int.eq_ofNat_of_zero_le (Int.neg_nonneg_of_nonpos hq)
    obtain rfl : q = -(k : Int) := by omega
    have hn : n * power 2 k = m := by
      have hzero : (-(k : Int)).toNat = 0 := by omega
      have hback : (- -(k : Int)).toNat = k := by omega
      simpa [hzero, hback] using h
    have hle : k ≤ 52 := by
      rcases Nat.lt_or_ge 52 k with hgt | hle
      · have hbig : power 2 53 ≤ n * power 2 k :=
          Nat.le_trans (power_monotone (by decide) hgt)
            (Nat.le_mul_of_pos_left _ (Nat.pos_of_ne_zero hne))
        omega
      · exact hle
    have hsplit : power 2 52 = power 2 (52 - k) * power 2 k := by
      rw [← Number.power_add, Nat.sub_add_cancel hle]
    have hlog : n.log2 = 52 - k := by
      refine (Nat.log2_eq_iff hne).mpr ⟨?_, ?_⟩
      · show power 2 (52 - k) ≤ n
        rw [← hn, hsplit] at hm
        exact Nat.le_of_mul_le_mul_right hm (Number.power_pos (by decide) k)
      · show n < power 2 (52 - k + 1)
        rw [← hn, Number.power_succ 2 52, hsplit, Nat.mul_right_comm,
          ← Number.power_succ 2 (52 - k)] at hm'
        exact Nat.lt_of_mul_lt_mul_right hm'
    omega

/-- **No rounding.** The double nearest to a natural number with a full mantissa has that mantissa
and its exponent. -/
theorem nearestBits_of_mantissa {n m : Nat} {q : Int} (hm : power 2 52 ≤ m) (hm' : m < power 2 53)
    (hq : -1074 ≤ q) (h : n * power 2 (-q).toNat = m * power 2 q.toNat) :
    nearestBits n 1 = min ((q + 1074).toNat * power 2 52 + m) infinityBits := by
  have hne : n ≠ 0 := ne_zero_of_mantissa hm h
  have hexponent : max (floorLog2 n 1 - 52) (-1074) = q := by
    rw [floorLog2_one hne, log2_of_mantissa hm hm' h]
    omega
  rw [nearestBits, if_neg hne]
  simp only [hexponent]
  rw [h, Nat.one_mul, roundDiv_mul .toEven m (Number.power_pos (by decide) q.toNat)]

theorem Parts.natValue_mul {p : Parts} (h : p.isIntegral = true) :
    p.natValue * power 2 (-p.exponent).toNat = p.mantissa * power 2 p.exponent.toNat := by
  have hdvd : power 2 (-p.exponent).toNat ∣ p.mantissa := by
    rw [Parts.isIntegral, Bool.or_eq_true, decide_eq_true_eq, beq_iff_eq] at h
    rcases h with h | h
    · have hzero : (-p.exponent).toNat = 0 := by omega
      rw [hzero]
      exact Nat.one_dvd _
    · exact Nat.dvd_of_mod_eq_zero h
  rw [Parts.natValue, Nat.div_mul_cancel (Nat.dvd_trans hdvd (Nat.dvd_mul_right _ _))]

/-- The value of an integral number. -/
def Parts.intValue (p : Parts) : Int := if p.negative then -(p.natValue : Int) else p.natValue

theorem Parts.natAbs_intValue (p : Parts) : p.intValue.natAbs = p.natValue := by
  rw [Parts.intValue]
  cases p.negative <;> simp

/-- The sign is that of the value, unless the value is zero. -/
theorem Parts.intValue_neg_iff {p : Parts} (h : p.natValue ≠ 0) :
    decide (p.intValue < 0) = p.negative := by
  rw [Parts.intValue]
  cases p.negative with
  | true => simpa using Nat.pos_of_ne_zero h
  | false => simp

theorem isIntegral_iff (x : Float) :
    isIntegral x = true ↔ x.isFinite = true ∧ (parts x).isIntegral = true := by
  rw [isIntegral, Bool.and_eq_true]

/-- An integral double is the one nearest to its value. -/
theorem nearestBits_natValue {x : Float} (h : isIntegral x = true) :
    nearestBits (parts x).natValue 1 = magnitude x := by
  obtain ⟨hfinite, hintegral⟩ := (isIntegral_iff x).mp h
  have hvalue := Parts.natValue_mul hintegral
  obtain ⟨hlt, hge, hfull⟩ := parts_bounds x
  by_cases hm : power 2 52 ≤ (parts x).mantissa
  · rw [nearestBits_of_mantissa hm hlt hge hvalue, ← magnitude_eq]
    exact Nat.min_eq_left (Nat.le_of_lt ((isFinite_iff x).mp hfinite))
  · -- below the least exponent nothing but zero is integral
    have hexponent : (parts x).exponent = -1074 := hfull.resolve_left hm
    have hmantissa : (parts x).mantissa = 0 := by
      rw [hexponent] at hvalue
      have hle : power 2 52 ≤ power 2 1074 := power_monotone (by decide) (by decide)
      have hone : (parts x).natValue * power 2 1074 = (parts x).mantissa := by
        simpa using hvalue
      rcases Nat.eq_zero_or_pos (parts x).natValue with hz | hpos
      · rw [← hone, hz, Nat.zero_mul]
      · have hbig := Nat.le_mul_of_pos_left (power 2 1074) hpos
        omega
    have hzero : (parts x).natValue = 0 := by
      rw [Parts.natValue, hmantissa, Nat.zero_mul, Nat.zero_div]
    rw [hzero, magnitude_eq, hexponent, hmantissa]
    rfl

theorem ofRatio_natValue {x : Float} (h : isIntegral x = true) :
    ofRatio (parts x).negative (parts x).natValue 1 = x := by
  rw [ofRatio, nearestBits_natValue h, ← toBits_toNat, UInt64.ofNat_toNat, Float.ofBits_toBits]

end Formulary.Binary64

namespace Formulary.Number

open Binary64

/-! ## Reading integers back -/

theorem isDigits_digits (n : Nat) : isDigits (digits n) = true := by
  rw [isDigits, all_isDigit_digits, Bool.and_true]
  simpa using digits_ne_nil n

theorem splitSign_of_isDigit {c : Char} (h : c.isDigit = true) (cs : List Char) :
    splitSign (c :: cs) = (false, c :: cs) := by
  have hplus : c ≠ '+' := by
    rintro rfl
    exact absurd h (by decide)
  have hminus : c ≠ '-' := by
    rintro rfl
    exact absurd h (by decide)
  simp [splitSign, hplus, hminus]

theorem splitSign_digits (n : Nat) : splitSign (digits n) = (false, digits n) := by
  cases hd : digits n with
  | nil => exact absurd hd (digits_ne_nil n)
  | cons c cs =>
      have hall := all_isDigit_digits n
      rw [hd, List.all_cons, Bool.and_eq_true] at hall
      exact splitSign_of_isDigit hall.1 cs

/-- A written integer reads back as its sign and absolute value. -/
theorem integer?_integerDigits (n : Int) :
    integer? (integerDigits n) = some (decide (n < 0), n.natAbs) := by
  rw [integerDigits, integer?]
  by_cases hn : n < 0
  · simp [hn, splitSign, isDigits_digits, ofDigits_digits]
  · simp [hn, splitSign_digits, isDigits_digits, ofDigits_digits]

theorem constant_of_isIntegral {x : Float} (h : isIntegral x = true) :
    constant x = integerDigits (parts x).intValue := by
  rw [constant, if_pos h]
  rfl

/-- A double without the sign of a zero. -/
def dropZeroSign (x : Float) : Float := if x == 0 then 0 else x

theorem eq_zero_of_beq_zero {x : Float} (h : (x == 0) = true) :
    x = Float.ofBits 0 ∨ x = negZero := by
  rcases eq_or_zero_of_beq h with rfl | ⟨hmagnitude, -⟩
  · exact .inl rfl
  · exact eq_of_magnitude_zero hmagnitude

theorem mantissa_of_beq_zero {x : Float} (h : (x == 0) = true) : (parts x).mantissa = 0 := by
  rcases eq_zero_of_beq_zero h with rfl | rfl
  · exact mantissa_zero
  · exact mantissa_negZero

/-- A zero is the only integral double of value zero. -/
theorem natValue_eq_zero_iff {x : Float} (h : isIntegral x = true) :
    (parts x).natValue = 0 ↔ (x == 0) = true := by
  constructor
  · intro hzero
    have hmagnitude : magnitude x = 0 := by
      rw [← nearestBits_natValue h, hzero]
      rfl
    rcases eq_of_magnitude_zero hmagnitude with rfl | rfl <;> decide
  · exact fun hbeq => Parts.natValue_of_mantissa_eq_zero (mantissa_of_beq_zero hbeq)

/-- The two zeros are written alike. -/
theorem constant_negZero : constant negZero = constant 0 := by
  have hvalue {x : Float} (h : (parts x).mantissa = 0) : (parts x).intValue = 0 := by
    rw [← Int.natAbs_eq_zero, Parts.natAbs_intValue, Parts.natValue_of_mantissa_eq_zero h]
  rw [constant_of_isIntegral isIntegral_negZero, constant_of_isIntegral isIntegral_zero,
    hvalue mantissa_negZero, hvalue mantissa_zero]

theorem constant_dropZeroSign (x : Float) : constant (dropZeroSign x) = constant x := by
  rw [dropZeroSign]
  cases hbeq : x == 0 with
  | true =>
      rcases eq_zero_of_beq_zero hbeq with rfl | rfl
      · rfl
      · exact constant_negZero.symm
  | false => rfl

/-- **Integral constants read back.** What is read is the constant, but for the sign of a zero. -/
theorem literal?_constant_eq {x : Float} (h : isIntegral x = true) :
    literal? (constant x) = some (dropZeroSign x) := by
  rw [constant_of_isIntegral h, literal?, integer?_integerDigits, Parts.natAbs_intValue,
    Option.map_some, dropZeroSign]
  congr 1
  cases hbeq : x == 0 with
  | true =>
      have hzero := (natValue_eq_zero_iff h).mpr hbeq
      have hvalue : (parts x).intValue = 0 := by
        rw [← Int.natAbs_eq_zero, Parts.natAbs_intValue, hzero]
      rw [hvalue, hzero]
      rfl
  | false =>
      have hzero : (parts x).natValue ≠ 0 := by
        rw [ne_eq, natValue_eq_zero_iff h, hbeq]
        decide
      rw [Parts.intValue_neg_iff hzero]
      exact ofRatio_natValue h

/-- Without its sign a zero is equal to itself and written alike. -/
theorem dropZeroSign_alike {x : Float} (h : isIntegral x = true) :
    (dropZeroSign x == x) = true ∧ constant (dropZeroSign x) = constant x := by
  refine ⟨?_, constant_dropZeroSign x⟩
  rw [dropZeroSign]
  cases hbeq : x == 0 with
  | true => rcases eq_zero_of_beq_zero hbeq with rfl | rfl <;> decide
  | false => exact beq_self_of_isFinite ((isIntegral_iff x).mp h).1

theorem literal?_constant {x : Float} (h : isIntegral x = true) :
    ∃ y, literal? (constant x) = some y ∧ (y == x) = true ∧ constant y = constant x :=
  ⟨dropZeroSign x, literal?_constant_eq h, dropZeroSign_alike h⟩

end Formulary.Number
