import Formulary.Number.Root
import Formulary.Number.Simplest
import Mathlib.RingTheory.Coprime.Lemmas
import Mathlib.Tactic.Linarith

/-!
# Fractions that are found

Two searches end with a fraction, and each of them promises something about what it
finds. The power of a positive number is found wherever it is rational
(`exactPower?_eq_some_iff`). The fraction that is taken for a double is as close to it
as it has to be, however early the search for a simple one stops (`simplestNear_close`).
-/

namespace Formulary.Number

/-! ## Exact roots -/

/-- Each bit leaves the number between the power of what is found and that of what is still
possible. -/
theorem rootFrom_bounds {k n bits r : ℕ} (hlow : r ^ k ≤ n) (hhigh : n < (r + 2 ^ bits) ^ k) :
    rootFrom k n bits r ^ k ≤ n ∧ n < (rootFrom k n bits r + 1) ^ k := by
  induction bits generalizing r with
  | zero => exact ⟨hlow, hhigh⟩
  | succ bits ih =>
      rw [rootFrom]
      split
      · next hset =>
          refine ih hset ?_
          rwa [pow_succ', two_mul, ← add_assoc] at hhigh
      · next hunset => exact ih hlow (not_le.mp hunset)

theorem root_bounds {k : ℕ} (hk : 0 < k) (n : ℕ) :
    root k n ^ k ≤ n ∧ n < (root k n + 1) ^ k := by
  refine rootFrom_bounds ?_ ?_
  · rw [zero_pow hk.ne']
    exact n.zero_le
  · have hbits : n.log2 < k * (n.log2 / k + 1) := Nat.lt_mul_div_succ n.log2 hk
    calc n < 2 ^ (n.log2 + 1) := Nat.lt_log2_self
      _ ≤ 2 ^ ((n.log2 / k + 1) * k) := Nat.pow_le_pow_right two_pos (by rwa [mul_comm])
      _ = (0 + 2 ^ (n.log2 / k + 1)) ^ k := by rw [zero_add, pow_mul]

theorem root_eq {k n r : ℕ} (hk : 0 < k) (h : r ^ k = n) : root k n = r := by
  obtain ⟨hlow, hhigh⟩ := root_bounds hk n
  rw [← h] at hlow hhigh ⊢
  refine le_antisymm ((Nat.pow_le_pow_iff_left hk.ne').mp hlow) ?_
  exact Nat.lt_succ_iff.mp ((Nat.pow_lt_pow_iff_left hk.ne').mp hhigh)

theorem pow_eq_self {k n : ℕ} (hk : 0 < k) (hn : n ≤ 1) : n ^ k = n := by
  obtain rfl | rfl := Nat.le_one_iff_eq_zero_or_eq_one.mp hn
  · exact zero_pow hk.ne'
  · exact one_pow k

/-- **Exact roots.** The exact root is found wherever there is one. -/
theorem exactRoot?_eq_some_iff {k n r : ℕ} (hk : 0 < k) : exactRoot? k n = some r ↔ r ^ k = n := by
  unfold exactRoot?
  split
  · next hn =>
      rw [Option.some.injEq]
      constructor
      · rintro rfl
        exact pow_eq_self hk hn
      · intro h
        exact Nat.pow_left_injective hk.ne' ((pow_eq_self hk hn).trans h.symm)
  · next hn =>
      split
      · next hbits =>
          -- the power of anything but zero and one has more bits
          refine iff_of_false (Option.some_ne_none r).symm fun h => ?_
          have hr : 2 ≤ r := by
            by_contra hr
            rw [pow_eq_self hk (by omega)] at h
            omega
          have hlow : 2 ^ k ≤ n := h ▸ Nat.pow_le_pow_left hr k
          have hhigh : n < 2 ^ k := Nat.log2_lt (by omega) |>.mp hbits
          omega
      · constructor
        · intro h
          split at h
          · next hroot => exact Option.some.inj h ▸ hroot
          · contradiction
        · intro h
          have hroot : power (root k n) k = n := by rwa [root_eq hk h]
          rw [if_pos hroot, root_eq hk h]

/-! ## Exact powers -/

theorem mkRat_pow_of_exactRoot? {x : ℚ} {k a b : ℕ} (hx : 0 ≤ x) (hk : 0 < k)
    (ha : exactRoot? k x.num.natAbs = some a) (hb : exactRoot? k x.den = some b) :
    mkRat a b ^ k = x := by
  have hnum : a ^ k = x.num.natAbs := (exactRoot?_eq_some_iff hk).mp ha
  have hden : b ^ k = x.den := (exactRoot?_eq_some_iff hk).mp hb
  have hsign : (x.num.natAbs : ℤ) = x.num := Int.natAbs_of_nonneg (Rat.num_nonneg.mpr hx)
  calc mkRat a b ^ k
      = ((a ^ k : ℕ) : ℚ) / ((b ^ k : ℕ) : ℚ) := by
        rw [Rat.mkRat_eq_div, div_pow, Int.cast_natCast, Nat.cast_pow, Nat.cast_pow]
    _ = (x.num : ℚ) / x.den := by
        rw [hnum, hden, ← Int.cast_natCast, hsign]
    _ = x := Rat.num_div_den x

theorem exactRoot?_of_pow {x w : ℚ} {k : ℕ} (hk : 0 < k) (h : w ^ k = x) :
    exactRoot? k x.num.natAbs = some w.num.natAbs ∧ exactRoot? k x.den = some w.den := by
  rw [exactRoot?_eq_some_iff hk, exactRoot?_eq_some_iff hk, ← h, Rat.num_pow, Rat.den_pow,
    Int.natAbs_pow]
  exact ⟨rfl, rfl⟩

/-- The power that is found is one of a root of the base. -/
theorem exactPower?_eq_some_iff_root {x y z : ℚ} (hx : 0 < x) :
    exactPower? x y = some z ↔ ∃ w : ℚ, 0 < w ∧ w ^ y.den = x ∧ w ^ y.num = z := by
  by_cases hwhole : y.den = 1
  · rw [exactPower?_of_den hwhole, Option.some.injEq, hwhole]
    constructor
    · rintro rfl
      exact ⟨x, hx, pow_one x, rfl⟩
    · rintro ⟨w, -, rfl, rfl⟩
      rw [pow_one]
  · rw [exactPower?, if_neg hwhole, if_neg hx.not_gt]
    constructor
    · intro h
      split at h
      · next a b ha hb =>
          have hroot := mkRat_pow_of_exactRoot? hx.le y.den_pos ha hb
          have hnonneg : (0 : ℚ) ≤ mkRat a b := Rat.mkRat_nonneg (Int.natCast_nonneg a) b
          refine ⟨mkRat a b, hnonneg.lt_of_ne fun hzero => ?_, hroot, ?_⟩
          · rw [← hzero, zero_pow y.den_ne_zero] at hroot
            exact hx.ne hroot
          · rw [← wholePower_eq]
            exact Option.some.inj h
      · contradiction
    · rintro ⟨w, hw, hroot, rfl⟩
      obtain ⟨hnum, hden⟩ := exactRoot?_of_pow y.den_pos hroot
      have hsign : (w.num.natAbs : ℤ) = w.num := Int.natAbs_of_nonneg (Rat.num_nonneg.mpr hw.le)
      rw [hnum, hden]
      dsimp only
      rw [hsign, Rat.mkRat_self, wholePower_eq]

/-- What has a rational power has a rational root, since an exponent is in lowest terms. -/
theorem exists_root {x y z : ℚ} (hx : 0 < x) (hz : 0 < z) (h : z ^ y.den = x ^ y.num) :
    ∃ w : ℚ, 0 < w ∧ w ^ y.den = x := by
  obtain ⟨u, v, huv⟩ := Rat.isCoprime_num_den y
  refine ⟨z ^ u * x ^ v, mul_pos (zpow_pos hz u) (zpow_pos hx v), ?_⟩
  calc (z ^ u * x ^ v) ^ y.den
      = (z ^ y.den) ^ u * x ^ (v * y.den) := by
        rw [mul_pow, ← zpow_natCast (z ^ u), zpow_comm, zpow_natCast, ← zpow_natCast (x ^ v),
          ← zpow_mul]
    _ = x ^ (u * y.num) * x ^ (v * y.den) := by rw [h, ← zpow_mul, mul_comm y.num]
    _ = x := by rw [← zpow_add₀ hx.ne', huv, zpow_one]

/-- **Exact powers.** The power of a positive number is found wherever it is rational. -/
theorem exactPower?_eq_some_iff {x y z : ℚ} (hx : 0 < x) :
    exactPower? x y = some z ↔ 0 < z ∧ z ^ y.den = x ^ y.num := by
  rw [exactPower?_eq_some_iff_root hx]
  have hpow : ∀ w : ℚ, (w ^ y.num) ^ y.den = (w ^ y.den) ^ y.num := by
    intro w
    rw [← zpow_natCast, zpow_comm, zpow_natCast]
  constructor
  · rintro ⟨w, hw, rfl, rfl⟩
    exact ⟨zpow_pos hw _, hpow w⟩
  · rintro ⟨hz, hsolves⟩
    obtain ⟨w, hw, rfl⟩ := exists_root hx hz hsolves
    refine ⟨w, hw, rfl, ?_⟩
    rw [← hpow] at hsolves
    exact ((pow_left_inj₀ hz.le (zpow_pos hw _).le y.den_ne_zero).mp hsolves).symm

example : exactPower? (4 / 9) (-3 / 2) = some (27 / 8) := by decide +kernel

/-! ## Simple fractions -/

theorem floor_lt_of_lt_ceil {x : ℚ} (h : x < x.ceil) : (x.floor : ℚ) < x := by
  refine lt_of_le_of_ne (Rat.floor_le x) fun hwhole => ?_
  rw [← hwhole, Rat.ceil_intCast] at h
  exact absurd h (lt_irrefl _)

/-- The search stays in its interval. -/
theorem simplestWithin_mem (depth : ℕ) {low high : ℚ} (hlow : 0 < low) (h : low ≤ high) :
    low ≤ simplestWithin depth low high ∧ simplestWithin depth low high ≤ high := by
  induction depth generalizing low high with
  | zero => exact ⟨le_refl low, h⟩
  | succ depth ih =>
      rw [simplestWithin]
      split
      · next hceil => exact ⟨Rat.le_ceil, hceil⟩
      · next hceil =>
          have hfloor := floor_lt_of_lt_ceil (h.trans_lt (not_le.mp hceil))
          dsimp only
          generalize (low.floor : ℚ) = below at hfloor
          have hbelow : 0 < low - below := sub_pos.mpr hfloor
          have habove : low - below ≤ high - below := sub_le_sub_right h below
          have hhigh : 0 < high - below := hbelow.trans_le habove
          obtain ⟨hs, hs'⟩ := ih (inv_pos.mpr hhigh) (inv_anti₀ hbelow habove)
          have hpos : 0 < simplestWithin depth (high - below)⁻¹ (low - below)⁻¹ :=
            (inv_pos.mpr hhigh).trans_le hs
          constructor
          · linarith only [(le_inv_comm₀ hpos hbelow).mp hs']
          · linarith only [(inv_le_comm₀ hhigh hpos).mp hs]

theorem simplestWithin_close (depth : ℕ) {size : ℚ} (h : 0 < size) :
    |simplestWithin depth (size * (1 - closeness)) (size * (1 + closeness)) - size| ≤
      closeness * size := by
  have hpos : 0 < closeness := by decide +kernel
  have hlt : closeness < 1 := by decide +kernel
  have hlow : 0 < size * (1 - closeness) := mul_pos h (sub_pos.mpr hlt)
  have hle : size * (1 - closeness) ≤ size * (1 + closeness) :=
    mul_le_mul_of_nonneg_left (by linarith only [hpos]) h.le
  obtain ⟨hbelow, habove⟩ := simplestWithin_mem depth hlow hle
  rw [abs_sub_le_iff]
  constructor
  · linarith only [habove]
  · linarith only [hbelow]

/-- **Simple fractions.** The fraction that is taken for a double differs from it by no more than
the part of it that is allowed. -/
theorem simplestNear_close (x : Float) :
    |simplestNear x - (Binary64.parts x).toRat| ≤ closeness * |(Binary64.parts x).toRat| := by
  unfold simplestNear
  generalize (Binary64.parts x).toRat = q
  dsimp only
  obtain hq | rfl | hq := lt_trichotomy q 0
  · have hclose := simplestWithin_close 64 (neg_pos.mpr hq)
    rwa [if_pos hq, if_pos hq, if_neg hq.ne, abs_of_neg hq, neg_sub_comm, abs_sub_comm]
  · decide +kernel
  · have hclose := simplestWithin_close 64 hq
    rwa [if_neg hq.not_gt, if_neg hq.not_gt, if_neg hq.ne', abs_of_pos hq]

example : simplestNear (-0.6666666666666667) = -2 / 3 := by decide +kernel

end Formulary.Number
