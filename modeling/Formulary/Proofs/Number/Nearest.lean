import Formulary.Proofs.Number.Counts
import Formulary.Proofs.Number.Intervals

/-!
# The nearest double

The double of an integer is rounded from its binary digits. What is read off
here is the rounding seen from outside: the integer lies in the interval of its
double (`within_nearestBits`), so no finite double is nearer, and of two that are
equally near the one with the even mantissa is taken (`isNearest_ofRatio`).
-/

namespace Formulary.Binary64

open Number (power power_pos power_add)

/-- A finite double to which a number is rounded: none is nearer to it, and one with an odd mantissa
is nearer than any other. -/
structure IsNearest (x : Float) (q : ℚ) : Prop where
  finite : x.isFinite = true
  nearest : ∀ y : Float, y.isFinite = true → |(parts x).toRat - q| ≤ |(parts y).toRat - q|
  toEven : ∀ y : Float, y.isFinite = true → (parts y).toRat ≠ (parts x).toRat →
    |(parts x).toRat - q| = |(parts y).toRat - q| → (parts x).mantissa % 2 = 0

/-! ## The interval of an integer -/

/-- A quotient is at most a half away from what it is rounded to, and if that is odd, less. -/
theorem roundDiv_toEven (num : Nat) {den : Nat} (hden : 0 < den) :
    2 * roundDiv .toEven num den * den ≤ 2 * num + den ∧
      2 * num ≤ (2 * roundDiv .toEven num den + 1) * den ∧
      (roundDiv .toEven num den % 2 = 1 → 2 * roundDiv .toEven num den * den < 2 * num + den ∧
        2 * num < (2 * roundDiv .toEven num den + 1) * den) := by
  have hsplit : den * (num / den) + num % den = num := Nat.div_add_mod num den
  have hrest : num % den < den := Nat.mod_lt num hden
  rw [roundDiv]
  generalize num / den = q at *
  generalize num % den = r at *
  have hdown : 2 * q * den = 2 * (den * q) := by ring
  have hdown' : (2 * q + 1) * den = 2 * (den * q) + den := by ring
  have hup : 2 * (q + 1) * den = 2 * (den * q) + 2 * den := by ring
  have hup' : (2 * (q + 1) + 1) * den = 2 * (den * q) + 3 * den := by ring
  split
  · rw [hdown, hdown']
    omega
  · split
    · rw [hup, hup']
      omega
    · split
      · rw [hdown, hdown']
        omega
      · rw [hup, hup']
        omega

/-- The same for a number that is counted in other units than its quotient. -/
theorem roundDiv_scaled {num den step units : Nat} (hden : 0 < den) (hstep : 0 < step)
    (h : num * step = units * den) :
    2 * (roundDiv .toEven num den * step) ≤ 2 * units + step ∧
      2 * units ≤ 2 * (roundDiv .toEven num den * step) + step ∧
      (roundDiv .toEven num den % 2 = 1 →
        2 * (roundDiv .toEven num den * step) < 2 * units + step ∧
          2 * units < 2 * (roundDiv .toEven num den * step) + step) := by
  obtain ⟨hlow, hhigh, hodd⟩ := roundDiv_toEven num hden
  generalize roundDiv .toEven num den = u at *
  have hbelow : 2 * u * den * step = 2 * (u * step) * den := by ring
  have habove : (2 * u + 1) * den * step = (2 * (u * step) + step) * den := by ring
  have hnum : 2 * num * step = 2 * units * den := by rw [Nat.mul_assoc, h, Nat.mul_assoc]
  have hnum' : (2 * num + den) * step = (2 * units + step) * den := by
    rw [Nat.add_mul, hnum, Nat.mul_comm den step, ← Nat.add_mul]
  refine ⟨?_, ?_, fun hu => ⟨?_, ?_⟩⟩
  · rw [← Nat.mul_le_mul_right_iff hden, ← hbelow, ← hnum']
    exact Nat.mul_le_mul_right _ hlow
  · rw [← Nat.mul_le_mul_right_iff hden, ← habove, ← hnum]
    exact Nat.mul_le_mul_right _ hhigh
  · rw [← Nat.mul_lt_mul_right hden, ← hbelow, ← hnum']
    exact Nat.mul_lt_mul_of_pos_right (hodd hu).1 hstep
  · rw [← Nat.mul_lt_mul_right hden, ← habove, ← hnum]
    exact Nat.mul_lt_mul_of_pos_right (hodd hu).2 hstep

/-- A magnitude put together from an exponent and a mantissa that may have been rounded up to the
next binade. -/
theorem units_rounded (e : Nat) {u : Nat} (hge : power 2 52 ≤ u) (hle : u ≤ power 2 53) :
    units (e * power 2 52 + u) = u * power 2 e ∧ power 2 e ≤ spacing (e * power 2 52 + u) := by
  rw [Number.power_succ 2 52] at hle
  rcases Nat.eq_or_lt_of_le hle with rfl | hlt
  · have hnext : e * power 2 52 + power 2 52 * 2 = power 2 52 * (e + 1 + 1) + 0 := by ring
    obtain ⟨hunits, hspacing⟩ := units_of_field (e + 1) (power_pos (by decide) 52)
    rw [hnext, hunits, hspacing, Number.power_succ 2 e]
    exact ⟨by ring, Nat.le_mul_of_pos_right _ Nat.two_pos⟩
  · obtain ⟨f, rfl⟩ := Nat.exists_eq_add_of_le hge
    have hfield : e * power 2 52 + (power 2 52 + f) = power 2 52 * (e + 1) + f := by ring
    obtain ⟨hunits, hspacing⟩ := units_of_field e (f := f) (by omega)
    rw [hfield, hunits, hspacing]
    exact ⟨rfl, Nat.le_refl _⟩

/-- The magnitude below is a whole step away, except from the first mantissa of a binade. -/
theorem units_pred_rounded (e : Nat) {u : Nat} (hge : power 2 52 ≤ u) (hle : u ≤ power 2 53) :
    units (e * power 2 52 + u - 1) + power 2 e ≤ u * power 2 e ∨
      u = power 2 52 ∧ units (e * power 2 52 + u - 1) < u * power 2 e := by
  have hpos : 0 < power 2 52 := power_pos (by decide) 52
  rcases Nat.eq_or_lt_of_le hge with rfl | hlt
  · right
    rw [← (units_rounded e hge hle).1]
    exact ⟨rfl, units_strictMono (by omega)⟩
  · left
    have hless : e * power 2 52 + u - 1 = e * power 2 52 + (u - 1) := by omega
    rw [hless, (units_rounded e (by omega) (by omega)).1, ← Nat.succ_mul]
    exact Nat.mul_le_mul_right _ (by omega)

theorem units_zero : units 0 = 0 := (units_of_lt (power_pos (by decide) 52)).1

theorem within_zero : Within 0 0 where
  lower := by simp [units_zero]
  upper := by simp [units_zero]
  inner h := absurd h (by decide)

/-- A number is in the interval of the magnitude whose mantissa is rounded from it. Where the steps
below are shorter, at the first mantissa of a binade, it must not lie below. -/
theorem within_rounded (e : Nat) {u q : Nat} (hge : power 2 52 ≤ u) (hle : u ≤ power 2 53)
    (hlow : 2 * (u * power 2 e) ≤ 2 * q + power 2 e)
    (hhigh : 2 * q ≤ 2 * (u * power 2 e) + power 2 e)
    (hodd : u % 2 = 1 → 2 * (u * power 2 e) < 2 * q + power 2 e ∧
      2 * q < 2 * (u * power 2 e) + power 2 e)
    (hfirst : u = power 2 52 → u * power 2 e ≤ q) : Within (e * power 2 52 + u) (q : ℚ) := by
  obtain ⟨hunits, hspacing⟩ := units_rounded e hge hle
  have hsucc := units_succ (e * power 2 52 + u)
  have hpred : units (e * power 2 52 + u - 1) + power 2 e ≤ u * power 2 e ∨
      units (e * power 2 52 + u - 1) < u * power 2 e ∧ u * power 2 e ≤ q :=
    (units_pred_rounded e hge hle).imp_right fun h => ⟨h.2, hfirst h.1⟩
  have hparity : (e * power 2 52 + u) % 2 = u % 2 := by
    rw [power_two_52]
    omega
  rw [hunits] at hsucc
  -- the rest is about the magnitude, its two neighbours and the number
  generalize power 2 e = step at *
  generalize u * step = here at *
  have hends : units (e * power 2 52 + u - 1) + here ≤ 2 * q ∧
      2 * q ≤ here + units (e * power 2 52 + u + 1) := by omega
  have hinner : u % 2 = 1 → units (e * power 2 52 + u - 1) + here < 2 * q ∧
      2 * q < here + units (e * power 2 52 + u + 1) := by
    intro hu
    have hstrict := hodd hu
    omega
  rw [← hparity] at hinner
  exact ⟨by rw [hunits]; exact_mod_cast hends.1, by rw [hunits]; exact_mod_cast hends.2,
    by rw [hunits]; exact_mod_cast hinner⟩

/-- The quotient that is rounded, in units of the least double. -/
theorem shifted_units (n : Nat) :
    n * power 2 (52 - n.log2) * power 2 (n.log2 + 1022) =
      n * power 2 1074 * power 2 (n.log2 - 52) := by
  have hexponents : 52 - n.log2 + (n.log2 + 1022) = 1074 + (n.log2 - 52) := by omega
  rw [Nat.mul_assoc, Nat.mul_assoc, ← power_add, ← power_add, hexponents]

/-- **Interval.** An integer is in the interval of its double, in units of the least one. -/
theorem within_nearestBits {n : Nat} (hn : n < countLimit) :
    Within (nearestBits n 1) ((n * power 2 1074 : Nat) : ℚ) := by
  rcases Nat.eq_zero_or_pos n with rfl | hpos
  · rw [Nat.zero_mul, Nat.cast_zero]
    exact within_zero
  have hne : n ≠ 0 := Nat.ne_of_gt hpos
  have hden : 0 < power 2 (n.log2 - 52) := power_pos (by decide) _
  have hbits := nearestBits_lt hn
  rw [nearestBits_one hne] at hbits ⊢
  rw [Nat.min_eq_left (by omega)]
  obtain ⟨hfrom, hto⟩ := roundDiv_bounds hne
  obtain ⟨hlow, hhigh, hodd⟩ := roundDiv_scaled hden (power_pos (by decide) _) (shifted_units n)
  refine within_rounded (n.log2 + 1022) hfrom hto hlow hhigh hodd fun hfirst => ?_
  -- the quotient is not below the first mantissa
  refine Nat.le_of_mul_le_mul_right ?_ hden
  rw [hfirst, ← shifted_units, Nat.mul_right_comm]
  exact Nat.mul_le_mul_right _ (shifted_bounds hne).1

/-- **Monotone.** The bits of a greater integer are no smaller. -/
theorem nearestBits_monotone {m n : Nat} (h : m ≤ n) : nearestBits m 1 ≤ nearestBits n 1 := by
  rcases Nat.lt_or_ge n countLimit with hn | hn
  · refine le_of_within (within_nearestBits hn) (within_nearestBits (Nat.lt_of_le_of_lt h hn)) ?_
    exact Nat.cast_le.mpr (Nat.mul_le_mul_right _ h)
  · rw [nearestBits_of_countLimit_le hn]
    exact nearestBits_le m 1

/-! ## Nearness -/

/-- The value of a double in units of the least one. -/
theorem toRat_mul (x : Float) : (parts x).toRat * (power 2 1074 : Nat) =
    if (parts x).negative then -(units (magnitude x) : ℚ) else units (magnitude x) := by
  have hnumerator := (Number.numerator_mul x).1
  have hden : ((power 2 (-(parts x).exponent).toNat : Nat) : ℚ) ≠ 0 :=
    Nat.cast_ne_zero.mpr (power_pos (by decide) _).ne'
  have hmagnitude : mkRat ((parts x).mantissa * power 2 (parts x).exponent.toNat)
      (power 2 (-(parts x).exponent).toNat) * (power 2 1074 : Nat) = units (magnitude x) := by
    rw [Rat.mkRat_eq_div, div_mul_eq_mul_div, div_eq_iff hden]
    exact_mod_cast hnumerator
  rw [Parts.toRat]
  cases (parts x).negative with
  | true => rw [if_pos rfl, if_pos rfl, neg_mul, hmagnitude]
  | false => rw [if_neg (by decide), if_neg (by decide), hmagnitude]

/-- No magnitude is nearer to a number than the one in whose interval it is. -/
theorem Within.nearest_units {k : Nat} {q : ℚ} (h : Within k q) (l : Nat) :
    |units k - q| ≤ |units l - q| ∧
      ((units l : ℚ) ≠ units k → |units k - q| = |units l - q| → k % 2 = 0) := by
  have hlower := h.lower
  have hupper := h.upper
  have hodd : k % 2 = 0 ∨ (units (k - 1) + units k : ℚ) < 2 * q ∧
      2 * q < (units k + units (k + 1) : ℚ) :=
    (Nat.mod_two_eq_zero_or_one k).imp_right h.inner
  rcases Nat.lt_trichotomy k l with hlt | rfl | hlt
  · have hnext : (units (k + 1) : ℚ) ≤ units l :=
      Nat.cast_le.mpr (units_strictMono.monotone hlt)
    have hless : (units k : ℚ) < units l := Nat.cast_lt.mpr (units_strictMono hlt)
    have habove : (units l : ℚ) - q ≤ |units l - q| := le_abs_self _
    refine ⟨abs_le.mpr ⟨by linarith, by linarith⟩, fun _ htie => hodd.resolve_right ?_⟩
    rintro ⟨-, hinner⟩
    have hnearer : |units k - q| < units l - q := abs_lt.mpr ⟨by linarith, by linarith⟩
    linarith
  · exact ⟨le_refl _, fun hne => absurd rfl hne⟩
  · have hnext : (units l : ℚ) ≤ units (k - 1) :=
      Nat.cast_le.mpr (units_strictMono.monotone (by omega))
    have hless : (units l : ℚ) < units k := Nat.cast_lt.mpr (units_strictMono hlt)
    have hbelow : q - units l ≤ |units l - q| := by
      rw [abs_sub_comm]
      exact le_abs_self _
    refine ⟨abs_le.mpr ⟨by linarith, by linarith⟩, fun _ htie => hodd.resolve_right ?_⟩
    rintro ⟨hinner, -⟩
    have hnearer : |units k - q| < q - units l := abs_lt.mpr ⟨by linarith, by linarith⟩
    linarith

/-- Nor is one on the other side of zero. -/
theorem Within.nearest {k l : Nat} {q t : ℚ} (h : Within k q) (ht : t = units l ∨ t = -units l) :
    |units k - q| ≤ |t - q| ∧ (t ≠ units k → |units k - q| = |t - q| → k % 2 = 0) := by
  rcases ht with rfl | rfl
  · exact h.nearest_units l
  · have hpositive : 0 ≤ q := by
      have hlower := h.lower
      have hcast : (0 : ℚ) ≤ units (k - 1) + units k := by positivity
      linarith
    have hl : (0 : ℚ) ≤ units l := Nat.cast_nonneg _
    have hzero : ((units 0 : Nat) : ℚ) = 0 := Nat.cast_zero
    obtain ⟨hle, htie⟩ := h.nearest_units 0
    have hfar : |(-units l : ℚ) - q| = units l + q := by
      rw [abs_of_nonpos (by linarith)]
      ring
    have hnear : |(units 0 : ℚ) - q| = q := by
      rw [hzero, zero_sub, abs_neg, abs_of_nonneg hpositive]
    rw [hnear] at hle htie
    rw [hfar]
    refine ⟨by linarith, fun hne heq => ?_⟩
    have hnothing : (units l : ℚ) = 0 := by linarith
    rw [hnothing, neg_zero, ← hzero] at hne
    exact htie hne (by linarith)

/-- The distance of a double from an integer, counted in units and seen from the side of zero on
which the integer is. -/
theorem exists_distance (negative : Bool) (n : Nat) (y : Float) :
    ∃ t : ℚ, (t = units (magnitude y) ∨ t = -units (magnitude y)) ∧
      (parts y).toRat * (power 2 1074 : Nat) = (if negative then -t else t) ∧
      |(parts y).toRat - (if negative then -(n : ℚ) else n)| * (power 2 1074 : Nat) =
        |t - n * (power 2 1074 : Nat)| := by
  have hscale : (0 : ℚ) < (power 2 1074 : Nat) := Nat.cast_pos.mpr (power_pos (by decide) 1074)
  have hunits : (parts y).toRat * (power 2 1074 : Nat) = units (magnitude y) ∨
      (parts y).toRat * (power 2 1074 : Nat) = -units (magnitude y) := by
    rw [toRat_mul]
    cases (parts y).negative with
    | true => exact .inr rfl
    | false => exact .inl rfl
  generalize ((power 2 1074 : Nat) : ℚ) = scale at *
  cases negative with
  | false =>
      refine ⟨(parts y).toRat * scale, hunits, rfl, ?_⟩
      rw [if_neg (by decide), ← sub_mul, abs_mul, abs_of_pos hscale]
  | true =>
      refine ⟨-((parts y).toRat * scale), ?_, (neg_neg _).symm, ?_⟩
      · rcases hunits with h | h
        · exact .inr (by rw [h])
        · exact .inl (by rw [h, neg_neg])
      · have hturned : -((parts y).toRat * scale) - n * scale =
            -(((parts y).toRat - -n) * scale) := by ring
        rw [if_pos rfl, hturned, abs_neg, abs_mul, abs_of_pos hscale]

/-- **Nearest.** An integer that is not too large is rounded to the nearest double. -/
theorem isNearest_ofRatio (negative : Bool) {n : Nat} (hn : n < countLimit) :
    IsNearest (ofRatio negative n 1) (if negative then -(n : ℚ) else n) := by
  have hwithin := within_nearestBits hn
  rw [← magnitude_ofRatio negative, Nat.cast_mul] at hwithin
  have hscale : (0 : ℚ) < (power 2 1074 : Nat) := Nat.cast_pos.mpr (power_pos (by decide) 1074)
  have hsame : (parts (ofRatio negative n 1)).negative = negative := signed_ofRatio negative n 1
  obtain ⟨u, -, hvalue, hdistance⟩ := exists_distance negative n (ofRatio negative n 1)
  have hu : u = units (magnitude (ofRatio negative n 1)) := by
    rw [toRat_mul, hsame] at hvalue
    cases negative with
    | true => exact (neg_injective hvalue).symm
    | false => exact hvalue.symm
  refine ⟨(isFinite_ofRatio_iff negative n).mpr hn, fun y _ => ?_, fun y _ hne htie => ?_⟩
  · obtain ⟨t, ht, -, hdistance'⟩ := exists_distance negative n y
    rw [← mul_le_mul_iff_of_pos_right hscale, hdistance, hdistance', hu]
    exact (hwithin.nearest ht).1
  · obtain ⟨t, ht, hvalue', hdistance'⟩ := exists_distance negative n y
    have hother : t ≠ u := by
      rintro rfl
      exact hne (mul_right_cancel₀ (ne_of_gt hscale) (hvalue'.trans hvalue.symm))
    rw [mantissa_parity]
    refine (hwithin.nearest ht).2 (hu ▸ hother) ?_
    rw [← hu, ← hdistance, ← hdistance', htie]

end Formulary.Binary64
