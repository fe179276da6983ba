import Formulary.Proofs.Number.Integral

/-!
# Counts as doubles

The double that stands for a natural number. It is zero for zero only, it is
never the one nearest to the base of the natural logarithm, and up to `2 ^ 53` it
is the number itself. It is finite for every number that is less than halfway
from the largest double to the next power of two.
-/

namespace Formulary.Binary64

open Number (power power_pos power_add)

theorem nearestBits_le (num den : Nat) : nearestBits num den ≤ infinityBits := by
  unfold nearestBits
  split
  · exact Nat.zero_le _
  · exact Nat.min_le_right _ _

theorem toBits_ofRatio (negative : Bool) (num den : Nat) :
    (ofRatio negative num den).toBits.toNat =
      nearestBits num den + if negative then signBit else 0 := by
  have hle := nearestBits_le num den
  have hsign : (if negative then signBit else 0) = signBit ∨
      (if negative then signBit else 0) = 0 := by
    cases negative
    · exact .inr rfl
    · exact .inl rfl
  have hpattern : (UInt64.ofNat (nearestBits num den + if negative then signBit else 0)).toNat =
      nearestBits num den + if negative then signBit else 0 := by
    rw [UInt64.toNat_ofNat']
    simp only [signBit, power_two_63, infinityBits] at *
    omega
  have hnumber : (UInt64.ofNat (nearestBits num den + if negative then signBit else 0)).toNat %
      signBit ≤ infinityBits := by
    rw [hpattern]
    simp only [signBit, power_two_63, infinityBits] at *
    omega
  rw [ofRatio, toBits_ofBits hnumber, hpattern]

theorem magnitude_ofRatio (negative : Bool) (num den : Nat) :
    magnitude (ofRatio negative num den) = nearestBits num den := by
  have hlt : nearestBits num den < signBit :=
    Nat.lt_of_le_of_lt (nearestBits_le num den) (by decide)
  rw [magnitude, toBits_ofRatio]
  cases negative with
  | true => rw [if_pos rfl, Nat.add_mod_right, Nat.mod_eq_of_lt hlt]
  | false => rw [if_neg (by decide), Nat.add_zero, Nat.mod_eq_of_lt hlt]

theorem signed_ofRatio (negative : Bool) (num den : Nat) :
    signed (ofRatio negative num den) = negative := by
  have hlt : nearestBits num den < signBit :=
    Nat.lt_of_le_of_lt (nearestBits_le num den) (by decide)
  rw [signed, toBits_ofRatio]
  cases negative with
  | true => exact decide_eq_true (by rw [if_pos rfl]; omega)
  | false => exact decide_eq_false (by rw [if_neg (by decide)]; omega)

/-- A rounded quotient is a number. -/
theorem ofRatio_beq_self (negative : Bool) (num den : Nat) :
    (ofRatio negative num den == ofRatio negative num den) = true := by
  rw [Float.beq_self_iff]
  intro hnan
  have hle := nearestBits_le num den
  rw [← magnitude_ofRatio negative, hnan] at hle
  exact absurd hle (by decide)

theorem magnitude_ofNat (n : Nat) : magnitude (ofNat n) = nearestBits n 1 :=
  magnitude_ofRatio false n 1

theorem le_roundDiv (tie : Tie) (num den : Nat) : num / den ≤ roundDiv tie num den := by
  unfold roundDiv
  dsimp only
  split
  · exact Nat.le_refl _
  · split
    · exact Nat.le_succ _
    · cases tie with
      | toEven => dsimp only; split <;> omega
      | awayFromZero => exact Nat.le_succ _

theorem roundDiv_le_succ (tie : Tie) (num den : Nat) :
    roundDiv tie num den ≤ num / den + 1 := by
  unfold roundDiv
  dsimp only
  split
  · exact Nat.le_succ _
  · split
    · exact Nat.le_refl _
    · cases tie with
      | toEven => dsimp only; split <;> omega
      | awayFromZero => exact Nat.le_refl _

/-- The bits of a count: its leading digit tells the binade, and the digits that a mantissa cannot
hold are rounded. -/
theorem nearestBits_one {n : Nat} (hn : n ≠ 0) :
    nearestBits n 1 = min ((n.log2 + 1022) * power 2 52 +
      roundDiv .toEven (n * power 2 (52 - n.log2)) (power 2 (n.log2 - 52))) infinityBits := by
  have hq : max (floorLog2 n 1 - 52) (-1074) = (n.log2 : Int) - 52 := by
    rw [floorLog2_one hn]
    omega
  have hbase : ((n.log2 : Int) - 52 + 1074).toNat = n.log2 + 1022 := by omega
  have hup : (-((n.log2 : Int) - 52)).toNat = 52 - n.log2 := by omega
  have hdown : ((n.log2 : Int) - 52).toNat = n.log2 - 52 := by omega
  rw [nearestBits, if_neg hn]
  simp only [hq, hbase, hup, hdown, Nat.one_mul]

/-- A count moved to where its leading digit is the first of a mantissa. -/
theorem shifted_bounds {n : Nat} (hn : n ≠ 0) :
    power 2 52 * power 2 (n.log2 - 52) ≤ n * power 2 (52 - n.log2) ∧
      n * power 2 (52 - n.log2) < power 2 53 * power 2 (n.log2 - 52) := by
  constructor
  · have hsplit : 52 + (n.log2 - 52) = n.log2 + (52 - n.log2) := by omega
    rw [← power_add, hsplit, power_add]
    exact Nat.mul_le_mul_right _ (Nat.log2_self_le hn)
  · have hsplit : 53 + (n.log2 - 52) = n.log2 + 1 + (52 - n.log2) := by omega
    rw [← power_add, hsplit, power_add]
    exact Nat.mul_lt_mul_of_pos_right Nat.lt_log2_self (power_pos (by decide) _)

/-- Rounding may carry into the next binade, but never below the leading digit. -/
theorem roundDiv_bounds {n : Nat} (hn : n ≠ 0) :
    power 2 52 ≤ roundDiv .toEven (n * power 2 (52 - n.log2)) (power 2 (n.log2 - 52)) ∧
      roundDiv .toEven (n * power 2 (52 - n.log2)) (power 2 (n.log2 - 52)) ≤ power 2 53 := by
  obtain ⟨hge, hlt⟩ := shifted_bounds hn
  have hpos : 0 < power 2 (n.log2 - 52) := power_pos (by decide) _
  constructor
  · exact Nat.le_trans ((Nat.le_div_iff_mul_le hpos).mpr hge) (le_roundDiv _ _ _)
  · exact Nat.le_trans (roundDiv_le_succ _ _ _) ((Nat.div_lt_iff_lt_mul hpos).mpr hlt)

/-- The bits of a count are at least those of the power of two below it. -/
theorem le_nearestBits {n : Nat} (hn : n ≠ 0) :
    min ((n.log2 + 1023) * power 2 52) infinityBits ≤ nearestBits n 1 := by
  have hunits := (roundDiv_bounds hn).1
  have hsucc : (n.log2 + 1023) * power 2 52 = (n.log2 + 1022) * power 2 52 + power 2 52 :=
    Nat.succ_mul _ _
  rw [nearestBits_one hn]
  omega

theorem ofNat_ne_euler (n : Nat) : (ofNat n == eulerNumber) = false := by
  have heuler : magnitude eulerNumber = 0x4005BF0A8B145769 := by decide
  have hne : nearestBits n 1 ≠ 0x4005BF0A8B145769 := by
    by_cases hn : n < 4
    · have hfew : ∀ k < 4, nearestBits k 1 ≠ 0x4005BF0A8B145769 := by decide
      exact hfew n hn
    · have hlog : 2 ≤ n.log2 := (Nat.le_log2 (by omega)).mpr (by omega)
      have hle := le_nearestBits (n := n) (by omega)
      have hmul : 1025 * power 2 52 ≤ (n.log2 + 1023) * power 2 52 :=
        Nat.mul_le_mul_right _ (by omega)
      rw [power_two_52] at hmul hle
      simp only [infinityBits] at hle
      omega
  cases hbeq : ofNat n == eulerNumber with
  | false => rfl
  | true =>
      rcases eq_or_zero_of_beq hbeq with heq | ⟨-, hzero⟩
      · rw [← heq, magnitude_ofNat] at heuler
        exact absurd heuler hne
      · rw [heuler] at hzero
        cases hzero

/-! ## The value of a count -/

theorem Parts.toRat_ne_zero {p : Parts} (h : p.mantissa ≠ 0) : p.toRat ≠ 0 := by
  have hden : power 2 (-p.exponent).toNat ≠ 0 := Nat.ne_of_gt (power_pos (by decide) _)
  have hnum : (p.mantissa : Int) * (power 2 p.exponent.toNat : Nat) ≠ 0 := by
    rw [← Int.natCast_mul]
    exact Int.natCast_ne_zero.mpr
      (Nat.mul_ne_zero h (Nat.ne_of_gt (power_pos (by decide) _)))
  have hquotient := (Rat.mkRat_ne_zero hden).mpr hnum
  rw [Parts.toRat]
  cases p.negative with
  | false => exact hquotient
  | true =>
      intro hzero
      refine hquotient ?_
      rw [← Rat.neg_neg (mkRat _ _)]
      exact congrArg (fun q : Rat => -q) hzero

theorem toRat_ofNat_ne_zero {n : Nat} (hn : n ≠ 0) : (parts (ofNat n)).toRat ≠ 0 := by
  have hle := le_nearestBits hn
  have hmul : 1023 * power 2 52 ≤ (n.log2 + 1023) * power 2 52 :=
    Nat.mul_le_mul_right _ (Nat.le_add_left _ _)
  have hfull : power 2 52 ≤ magnitude (ofNat n) := by
    rw [magnitude_ofNat, power_two_52] at *
    simp only [infinityBits] at hle
    omega
  refine Parts.toRat_ne_zero ?_
  rw [parts_of_ge hfull, power_two_52]
  dsimp only
  omega

/-- Whatever the bits are put together from is found in them. -/
theorem parts_of_magnitude {x : Float} {m : Nat} {q : Int} (hm : power 2 52 ≤ m)
    (hm' : m < power 2 53) (hq : -1074 ≤ q)
    (h : magnitude x = (q + 1074).toNat * power 2 52 + m) :
    parts x = ⟨signed x, m, q⟩ := by
  obtain ⟨f, rfl⟩ := Nat.exists_eq_add_of_le hm
  have hf : f < power 2 52 := by
    rw [Number.power_succ 2 52] at hm'
    omega
  have hsplit : magnitude x = power 2 52 * ((q + 1074).toNat + 1) + f := by
    rw [h, Nat.mul_succ, Nat.mul_comm, Nat.add_assoc]
  have hdiv : magnitude x / power 2 52 = (q + 1074).toNat + 1 := by
    rw [hsplit, Nat.mul_add_div (power_pos (by decide) 52), Nat.div_eq_of_lt hf, Nat.add_zero]
  have hmod : magnitude x % power 2 52 = f := by
    rw [hsplit, Nat.mul_add_mod, Nat.mod_eq_of_lt hf]
  have hfull : power 2 52 ≤ magnitude x := by
    rw [h]
    omega
  have hexponent : (((q + 1074).toNat + 1 : Nat) : Int) - 1075 = q := by omega
  rw [parts_of_ge hfull, hdiv, hmod, hexponent]

theorem bits_le_infinityBits {e m : Nat} (he : e ≤ 1074) (hm : m < power 2 53) :
    e * power 2 52 + m ≤ infinityBits := by
  have hle : e * power 2 52 ≤ 1074 * power 2 52 := Nat.mul_le_mul_right _ he
  have hsum : 1074 * power 2 52 + power 2 53 ≤ infinityBits := by decide
  omega

/-- A count below `2 ^ 53`, shifted until it fills the mantissa, loses no bit. -/
theorem exists_parts_of_small {x : Float} {n : Nat} (hne : n ≠ 0) (hlt : n < power 2 53)
    (h : magnitude x = nearestBits n 1) :
    ∃ k : Nat, parts x = ⟨signed x, n * power 2 k, -(k : Int)⟩ := by
  have hlog : n.log2 ≤ 52 := Nat.le_of_lt_succ ((Nat.log2_lt hne).mpr hlt)
  obtain ⟨k, hk⟩ := Nat.exists_eq_add_of_le hlog
  have hexponent : (-(k : Int)).toNat = 0 ∧ (- -(k : Int)).toNat = k := by omega
  have hm : power 2 52 ≤ n * power 2 k := by
    rw [hk, power_add]
    exact Nat.mul_le_mul_right _ (Nat.log2_self_le hne)
  have hm' : n * power 2 k < power 2 53 := by
    have hsplit : 53 = n.log2 + 1 + k := by omega
    rw [hsplit, power_add]
    exact Nat.mul_lt_mul_of_pos_right Nat.lt_log2_self (power_pos (by decide) k)
  have hbits : nearestBits n 1 = min ((-(k : Int) + 1074).toNat * power 2 52 + n * power 2 k)
      infinityBits := by
    refine nearestBits_of_mantissa hm hm' (by omega) ?_
    rw [hexponent.1, hexponent.2, Number.power_zero, Nat.mul_one]
  rw [Nat.min_eq_left (bits_le_infinityBits (by omega) hm'), ← h] at hbits
  exact ⟨k, parts_of_magnitude hm hm' (by omega) hbits⟩

/-- **Counts are exact.** Up to `2 ^ 53` a count is its double. -/
theorem toRat_ofNat {n : Nat} (hn : n ≤ power 2 53) : (parts (ofNat n)).toRat = n := by
  rcases Nat.eq_zero_or_pos n with rfl | hpos
  · exact Parts.toRat_of_mantissa_eq_zero (by decide)
  rcases Nat.eq_or_lt_of_le hn with rfl | hlt
  · decide
  obtain ⟨k, hparts⟩ := exists_parts_of_small (Nat.ne_of_gt hpos) hlt (magnitude_ofNat n)
  have hexponent : (-(k : Int)).toNat = 0 ∧ (- -(k : Int)).toNat = k := by omega
  have hsigned : signed (ofNat n) = false := signed_ofRatio false n 1
  rw [hparts, hsigned, Parts.toRat]
  simp only [hexponent.1, hexponent.2, Number.power_zero]
  have hpower : power 2 k ≠ 0 := Nat.ne_of_gt (power_pos (by decide) k)
  have hcancel : mkRat ((n * power 2 k : Nat) * (1 : Nat)) (power 2 k) = mkRat (n : Int) 1 := by
    have h := Rat.mkRat_mul_right (n := (n : Int)) (d := 1) hpower
    rwa [Nat.one_mul, ← Int.natCast_mul, ← Int.mul_one ((n * power 2 k : Nat) : Int)] at h
  have hone : ((1 : Nat) : Rat)⁻¹ = 1 := by simp
  rw [if_neg (by decide), hcancel, Rat.mkRat_eq_div, Rat.div_def, hone, Rat.mul_one]
  rfl

/-- **Counts are integral.** However large a count is, its double is an integer, if it is finite. -/
theorem isIntegral_ofRatio {negative : Bool} {n : Nat}
    (h : (ofRatio negative n 1).isFinite = true) : isIntegral (ofRatio negative n 1) = true := by
  rw [isIntegral_iff]
  refine ⟨h, ?_⟩
  have hmagnitude := magnitude_ofRatio negative n 1
  rcases Nat.eq_zero_or_pos n with rfl | hpos
  · exact Parts.isIntegral_of_mantissa_eq_zero (by cases negative <;> decide)
  rcases Nat.lt_or_ge n (power 2 53) with hlt | hge
  · obtain ⟨k, hparts⟩ := exists_parts_of_small (Nat.ne_of_gt hpos) hlt hmagnitude
    have hback : (- -(k : Int)).toNat = k := by omega
    rw [hparts, Parts.isIntegral, hback, Nat.mul_mod_left, beq_self_eq_true, Bool.or_true]
  · -- from `2 ^ 53` on the exponent is not negative
    have hlog : 53 ≤ n.log2 := (Nat.le_log2 (Nat.ne_of_gt hpos)).mpr hge
    have hle := le_nearestBits (Nat.ne_of_gt hpos)
    have hmul : 1076 * power 2 52 ≤ (n.log2 + 1023) * power 2 52 :=
      Nat.mul_le_mul_right _ (by omega)
    have hfinite := (isFinite_iff _).mp h
    rw [hmagnitude] at hfinite
    have hfull : 1076 * power 2 52 ≤ magnitude (ofRatio negative n 1) := by
      rw [hmagnitude]
      omega
    have hfield := (Nat.le_div_iff_mul_le (power_pos (by decide) 52)).mpr hfull
    rw [parts_of_ge (by omega), Parts.isIntegral, Bool.or_eq_true]
    exact .inl (decide_eq_true (by dsimp only; omega))

/-! ## The largest counts -/

/-- A quotient below a half integer is rounded to no more than the integer. -/
theorem roundDiv_le {tie : Tie} {num den m : Nat} (h : 2 * num < (2 * m + 1) * den) :
    roundDiv tie num den ≤ m := by
  have hsplit : den * (num / den) + num % den = num := Nat.div_add_mod num den
  have hodd : (2 * m + 1) * den = 2 * (den * m) + den := by ring
  have hq : num / den ≤ m := by
    by_contra hlt
    have hmul : den * (m + 1) ≤ den * (num / den) := Nat.mul_le_mul_left _ (by omega)
    rw [Nat.mul_succ] at hmul
    omega
  rcases Nat.eq_or_lt_of_le hq with heq | hlt
  · -- at the integer itself the remainder is less than a half
    have hrest : 2 * (num % den) < den := by
      rw [heq] at hsplit
      omega
    unfold roundDiv
    dsimp only
    rw [if_pos hrest, heq]
  · exact Nat.le_trans (roundDiv_le_succ tie num den) hlt

/-- The least count that is too large for a finite double. -/
def countLimit : Nat := power 2 1024 - power 2 970

/-- The powers of two that are finite doubles are within the limit. -/
theorem power_le_countLimit : power 2 1023 ≤ countLimit := by
  have htop : power 2 1024 = power 2 1023 * 2 := Number.power_succ 2 1023
  have hhalf : power 2 970 ≤ power 2 1023 := power_monotone (by decide) (by decide)
  rw [countLimit, htop]
  omega

theorem lt_countLimit {n : Nat} (hn : n ≤ power 2 53) : n < countLimit := by
  have hle : power 2 54 ≤ power 2 1023 := power_monotone (by decide) (by decide)
  have hdouble : power 2 54 = power 2 53 * 2 := Number.power_succ 2 53
  have hpos : 0 < power 2 53 := power_pos (by decide) 53
  have hlimit := power_le_countLimit
  omega

theorem two_mul_countLimit : 2 * countLimit = (2 * (power 2 53 - 1) + 1) * power 2 971 := by
  have htop : power 2 1024 = power 2 53 * power 2 971 := power_add 2 53 971
  have hhalf : power 2 971 = power 2 970 * 2 := Number.power_succ 2 970
  have h53 : power 2 53 = 9007199254740992 := rfl
  rw [countLimit, htop, h53]
  omega

theorem log2_of_lt_countLimit {n : Nat} (hne : n ≠ 0) (hn : n < countLimit) : n.log2 ≤ 1023 := by
  by_contra hlog
  have hmono : power 2 1024 ≤ power 2 n.log2 := power_monotone (by decide) (by omega)
  have hle : power 2 n.log2 ≤ n := Nat.log2_self_le hne
  have hlt : n < power 2 1024 := Nat.lt_of_lt_of_le hn (Nat.sub_le _ _)
  omega

/-- The bits of a count below the limit are those of a finite double. -/
theorem nearestBits_lt {n : Nat} (hn : n < countLimit) : nearestBits n 1 < infinityBits := by
  rcases Nat.eq_zero_or_pos n with rfl | hpos
  · decide
  have hne : n ≠ 0 := Nat.ne_of_gt hpos
  have hlog := log2_of_lt_countLimit hne hn
  have hinfinity : infinityBits = 2047 * power 2 52 := rfl
  have h52 : power 2 52 = 4503599627370496 := power_two_52
  have h53 : power 2 53 = 9007199254740992 := rfl
  rw [nearestBits_one hne, h52]
  refine Nat.lt_of_le_of_lt (Nat.min_le_left _ _) ?_
  rcases Nat.eq_or_lt_of_le hlog with htop | hlow
  · -- in the last binade the mantissa must not be rounded up to the next one
    have hunits : roundDiv .toEven (n * power 2 (52 - n.log2)) (power 2 (n.log2 - 52)) ≤
        power 2 53 - 1 := by
      refine roundDiv_le ?_
      rw [htop, Number.power_zero, Nat.mul_one, ← two_mul_countLimit]
      omega
    omega
  · have hunits := (roundDiv_bounds hne).2
    omega

theorem isFinite_ofNat {n : Nat} (hn : n < countLimit) : (ofNat n).isFinite = true := by
  rw [isFinite_iff, magnitude_ofNat]
  exact nearestBits_lt hn

/-! ## Counts that are too large -/

/-- A quotient that is at least halfway from an odd number to the next is rounded up. -/
theorem lt_roundDiv {num den m : Nat} (hden : 0 < den) (hodd : m % 2 = 1)
    (h : (2 * m + 1) * den ≤ 2 * num) : m < roundDiv .toEven num den := by
  have hsplit : den * (num / den) + num % den = num := Nat.div_add_mod num den
  have hrest : num % den < den := Nat.mod_lt num hden
  have hhalf : (2 * m + 1) * den = 2 * (den * m) + den := by ring
  have hq : m ≤ num / den := by
    by_contra hlt
    have hmul : den * (num / den + 1) ≤ den * m := Nat.mul_le_mul_left _ (by omega)
    rw [Nat.mul_succ] at hmul
    omega
  rcases Nat.eq_or_lt_of_le hq with heq | hlt
  · -- at the number itself the remainder is at least a half, and halves go to the even number
    rw [← heq] at hsplit
    unfold roundDiv
    dsimp only
    rw [if_neg (by omega), ← heq]
    split
    · exact Nat.lt_succ_self m
    · rw [if_neg (by omega)]
      exact Nat.lt_succ_self m
  · exact Nat.lt_of_lt_of_le hlt (le_roundDiv _ _ _)

/-- From the limit on the bits of a count are those of infinity. -/
theorem nearestBits_of_countLimit_le {n : Nat} (hn : countLimit ≤ n) :
    nearestBits n 1 = infinityBits := by
  have htop := power_le_countLimit
  have hne : n ≠ 0 := by
    have hpos : 0 < power 2 1023 := power_pos (by decide) 1023
    omega
  have hlog : 1023 ≤ n.log2 := by
    by_contra hlog
    have hmono : power 2 (n.log2 + 1) ≤ power 2 1023 := power_monotone (by decide) (by omega)
    have hlt : n < power 2 (n.log2 + 1) := Nat.lt_log2_self
    omega
  have hinfinity : infinityBits = 2047 * power 2 52 := rfl
  refine Nat.le_antisymm (nearestBits_le n 1) ?_
  rcases Nat.eq_or_lt_of_le hlog with hlast | hbeyond
  · -- in the last binade the mantissa is rounded up to the next one
    have hunits : power 2 53 - 1 < roundDiv .toEven (n * power 2 (52 - n.log2))
        (power 2 (n.log2 - 52)) := by
      refine lt_roundDiv (power_pos (by decide) _) (by decide) ?_
      rw [← hlast, Number.power_zero, Nat.mul_one, ← two_mul_countLimit]
      omega
    have h52 : power 2 52 = 4503599627370496 := power_two_52
    have h53 : power 2 53 = 9007199254740992 := rfl
    rw [nearestBits_one hne, h52]
    refine Nat.le_min.mpr ⟨?_, Nat.le_refl _⟩
    rw [hinfinity, h52]
    omega
  · have hbits := le_nearestBits hne
    have hmul : 2047 * power 2 52 ≤ (n.log2 + 1023) * power 2 52 :=
      Nat.mul_le_mul_right _ (by omega)
    omega

theorem ofRatio_of_countLimit_le (negative : Bool) {n : Nat} (hn : countLimit ≤ n) :
    ofRatio negative n 1 = if negative then negInfinity else posInfinity := by
  rw [ofRatio, nearestBits_of_countLimit_le hn]
  cases negative <;> rfl

/-- An integer is a finite double just when it is below the limit. -/
theorem isFinite_ofRatio_iff (negative : Bool) (n : Nat) :
    (ofRatio negative n 1).isFinite = true ↔ n < countLimit := by
  rw [isFinite_iff, magnitude_ofRatio]
  constructor
  · intro h
    by_contra hn
    rw [nearestBits_of_countLimit_le (Nat.not_lt.mp hn)] at h
    exact Nat.lt_irrefl _ h
  · exact nearestBits_lt

example : (ofNat (countLimit - 1)).isFinite = true ∧ ofNat countLimit = posInfinity := by
  decide +kernel

end Formulary.Binary64
