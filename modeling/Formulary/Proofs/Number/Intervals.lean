import Formulary.Number.Decimal
import Formulary.Proofs.Number.Integral

/-!
# Intervals of doubles

The numbers that read back as a double lie from halfway to the neighbour below
to halfway to the neighbour above. Counted in units of the least double, the
magnitudes go up by their spacings, so the intervals of two doubles have at most
an end in common, and the two of them cannot both claim it, because one of two
neighbours is odd (`eq_of_within`). The fewest digits of a double are taken from
its interval (`within_fewest`).
-/

namespace Formulary.Binary64

open Number (power power_pos power_add)

/-- A magnitude counted in units of the least double. -/
def units (k : Nat) : Nat :=
  if k < power 2 52 then k else (power 2 52 + k % power 2 52) * power 2 (k / power 2 52 - 1)

/-- How far it is to the next magnitude. -/
def spacing (k : Nat) : Nat := power 2 (k / power 2 52 - 1)

theorem spacing_pos (k : Nat) : 0 < spacing k := power_pos (by decide) _

theorem units_of_lt {k : Nat} (hk : k < power 2 52) : units k = k ∧ spacing k = 1 := by
  rw [units, if_pos hk, spacing, Nat.div_eq_of_lt hk]
  exact ⟨rfl, rfl⟩

theorem div_mod_field (j : Nat) {f : Nat} (hf : f < power 2 52) :
    (power 2 52 * (j + 1) + f) / power 2 52 = j + 1 ∧
      (power 2 52 * (j + 1) + f) % power 2 52 = f := by
  constructor
  · rw [Nat.mul_add_div (power_pos (by decide) 52), Nat.div_eq_of_lt hf, Nat.add_zero]
  · rw [Nat.mul_add_mod, Nat.mod_eq_of_lt hf]

/-- A magnitude with a full mantissa. -/
theorem units_of_field (j : Nat) {f : Nat} (hf : f < power 2 52) :
    units (power 2 52 * (j + 1) + f) = (power 2 52 + f) * power 2 j ∧
      spacing (power 2 52 * (j + 1) + f) = power 2 j := by
  obtain ⟨hdiv, hmod⟩ := div_mod_field j hf
  have hge : ¬ power 2 52 * (j + 1) + f < power 2 52 := by
    rw [Nat.mul_succ]
    omega
  rw [units, if_neg hge, spacing, hdiv, hmod, Nat.add_sub_cancel]
  exact ⟨rfl, rfl⟩

theorem exists_field {k : Nat} (hk : power 2 52 ≤ k) :
    ∃ j f, f < power 2 52 ∧ k = power 2 52 * (j + 1) + f := by
  have hpos : 0 < k / power 2 52 := Nat.div_pos hk (power_pos (by decide) 52)
  refine ⟨k / power 2 52 - 1, k % power 2 52, Nat.mod_lt k (power_pos (by decide) 52), ?_⟩
  rw [Nat.sub_add_cancel hpos, Nat.div_add_mod]

/-- **Step.** The next magnitude is one spacing away, also from one binade to the next. -/
theorem units_succ (k : Nat) : units (k + 1) = units k + spacing k := by
  have hzero : 0 < power 2 52 := power_pos (by decide) 52
  rcases Nat.lt_or_ge k (power 2 52) with hk | hk
  · obtain ⟨hunits, hspacing⟩ := units_of_lt hk
    rw [hunits, hspacing]
    rcases Nat.lt_or_ge (k + 1) (power 2 52) with hk' | hk'
    · exact (units_of_lt hk').1
    · have hfirst : k + 1 = power 2 52 * (0 + 1) + 0 := by omega
      rw [hfirst, (units_of_field 0 hzero).1, Number.power_zero, Nat.mul_one]
      omega
  · obtain ⟨j, f, hf, rfl⟩ := exists_field hk
    obtain ⟨hunits, hspacing⟩ := units_of_field j hf
    rw [hunits, hspacing]
    rcases Nat.lt_or_ge (f + 1) (power 2 52) with hf' | hf'
    · rw [Nat.add_assoc, (units_of_field j hf').1, ← Nat.add_assoc, Nat.succ_mul]
    · have hnext : power 2 52 * (j + 1) + f + 1 = power 2 52 * (j + 1 + 1) + 0 := by
        rw [Nat.mul_succ (power 2 52) (j + 1)]
        omega
      have hfull : power 2 52 + f + 1 = power 2 52 * 2 := by omega
      rw [hnext, (units_of_field (j + 1) hzero).1, Nat.add_zero, Number.power_succ 2 j,
        ← Nat.succ_mul, Nat.succ_eq_add_one, hfull, Nat.mul_assoc, Nat.mul_comm 2]

theorem units_strictMono : StrictMono units :=
  strictMono_nat_of_lt_succ fun k => by
    rw [units_succ]
    exact Nat.lt_add_of_pos_right (spacing_pos k)

/-! ## The parts in units -/

variable {x : Float}

theorem units_magnitude (x : Float) : units (magnitude x) =
    (parts x).mantissa * power 2 ((parts x).exponent + 1074).toNat ∧
      spacing (magnitude x) = power 2 ((parts x).exponent + 1074).toNat := by
  rcases Nat.lt_or_ge (magnitude x) (power 2 52) with hk | hk
  · rw [parts_of_lt hk, (units_of_lt hk).1, (units_of_lt hk).2]
    exact ⟨(Nat.mul_one _).symm, rfl⟩
  · have hexponent : ((magnitude x / power 2 52 : Nat) - 1075 + 1074 : Int).toNat =
        magnitude x / power 2 52 - 1 := by omega
    rw [parts_of_ge hk, units, if_neg (Nat.not_lt.mpr hk), spacing]
    dsimp only
    rw [hexponent]
    exact ⟨rfl, rfl⟩

/-- The mantissa is as even as the magnitude. -/
theorem mantissa_parity (x : Float) : (parts x).mantissa % 2 = magnitude x % 2 := by
  have hmagnitude := magnitude_eq x
  rw [power_two_52] at hmagnitude
  omega

/-- A double whose neighbour below is in another binade has only half the spacing below it. -/
theorem spacing_pred (x : Float) :
    2 * spacing (magnitude x - 1) =
      if (Number.Spaced.ofParts (parts x)).narrow then spacing (magnitude x)
      else 2 * spacing (magnitude x) := by
  rw [Number.Spaced.ofParts]
  dsimp only
  rcases Nat.lt_or_ge (magnitude x) (power 2 52) with hk | hk
  · have hpred := Nat.lt_of_le_of_lt (Nat.sub_le _ 1) hk
    rw [parts_of_lt hk, (units_of_lt hk).2, (units_of_lt hpred).2]
    simp
  · rw [parts_of_ge hk]
    obtain ⟨j, f, hf, hfield⟩ := exists_field hk
    obtain ⟨hdiv, hmod⟩ := div_mod_field j hf
    rw [← hfield] at hdiv hmod
    rw [hdiv, hmod, hfield, (units_of_field j hf).2]
    cases f with
    | succ f =>
        have hpred : power 2 52 * (j + 1) + (f + 1) - 1 = power 2 52 * (j + 1) + f := by omega
        rw [hpred, (units_of_field j (Nat.lt_of_succ_lt hf)).2]
        simp
    | zero =>
        have hpos : 0 < power 2 52 := power_pos (by decide) 52
        have hlast : power 2 52 - 1 < power 2 52 := Nat.sub_lt hpos Nat.one_pos
        cases j with
        | zero =>
            have hpred : power 2 52 * (0 + 1) + 0 - 1 = power 2 52 - 1 := by omega
            rw [hpred, (units_of_lt hlast).2]
            simp
        | succ j =>
            have hpred : power 2 52 * (j + 1 + 1) + 0 - 1 =
                power 2 52 * (j + 1) + (power 2 52 - 1) := by
              rw [Nat.mul_succ]
              omega
            have hexponent : (-1074 : Int) < (j + 1 + 1 : Nat) - 1075 := by omega
            rw [hpred, (units_of_field j hlast).2, Number.power_succ 2 j, decide_eq_true hexponent,
              Nat.add_zero, beq_self_eq_true, Bool.and_self, if_pos rfl, Nat.mul_comm]

/-! ## Intervals -/

/-- Whether a number, in units of the least double, reads back as a magnitude. The ends of the
interval do if the magnitude is even. -/
structure Within (k : Nat) (q : ℚ) : Prop where
  lower : (units (k - 1) + units k : ℚ) ≤ 2 * q
  upper : 2 * q ≤ (units k + units (k + 1) : ℚ)
  inner : k % 2 = 1 → (units (k - 1) + units k : ℚ) < 2 * q ∧
    2 * q < (units k + units (k + 1) : ℚ)

/-- **Monotone.** A number that is no greater reads back as no greater magnitude. -/
theorem le_of_within {k l : Nat} {q r : ℚ} (hk : Within k q) (hl : Within l r) (h : r ≤ q) :
    l ≤ k := by
  by_contra hlt
  have hbelow : units k ≤ units (l - 1) := units_strictMono.monotone (by omega)
  have habove : units (k + 1) ≤ units l := units_strictMono.monotone (by omega)
  have hbelow' : (units k : ℚ) ≤ units (l - 1) := Nat.cast_le.mpr hbelow
  have habove' : (units (k + 1) : ℚ) ≤ units l := Nat.cast_le.mpr habove
  have hupper := hk.upper
  have hlower := hl.lower
  have hmeet : (units k : ℚ) = units (l - 1) := by linarith
  -- they meet in an end, so they are neighbours, and one of them is odd
  have hnext : k = l - 1 := units_strictMono.injective (Nat.cast_injective hmeet)
  rcases Nat.mod_two_eq_zero_or_one k with heven | hodd
  · have hinner := (hl.inner (by omega)).1
    linarith
  · have hinner := (hk.inner hodd).2
    linarith

/-- **Apart.** A number reads back as one magnitude only. -/
theorem eq_of_within {k l : Nat} {q : ℚ} (hk : Within k q) (hl : Within l q) : k = l :=
  Nat.le_antisymm (le_of_within hl hk (le_refl q)) (le_of_within hk hl (le_refl q))

theorem within_units {k : Nat} (hk : k ≠ 0) : Within k (units k) := by
  have hbelow : (units (k - 1) : ℚ) < units k :=
    Nat.cast_lt.mpr (units_strictMono (Nat.pred_lt hk))
  have habove : (units k : ℚ) < units (k + 1) :=
    Nat.cast_lt.mpr (units_strictMono (Nat.lt_succ_self k))
  exact ⟨by linarith, by linarith, fun _ => ⟨by linarith, by linarith⟩⟩

end Formulary.Binary64

namespace Formulary.Number

open Binary64

/-! ## Decimals of an interval -/

/-- The number that a decimal stands for. -/
def Decimal.value (d : Decimal) : ℚ := d.significand * 10 ^ d.exponent

/-- The units of the least double in a decimal. -/
def Decimal.inUnits (d : Decimal) : ℚ := d.value * (power 2 1074 : Nat)

theorem Decimal.value_mul (d : Decimal) :
    d.value * (power 10 (-d.exponent).toNat : Nat) =
      (d.significand * power 10 d.exponent.toNat : Nat) := by
  have hpower : ∀ n : Nat, ((power 10 n : Nat) : ℚ) = 10 ^ (n : ℤ) := by
    intro n
    rw [zpow_natCast, power]
    exact Nat.cast_pow 10 n
  have hsplit : d.exponent + (-d.exponent).toNat = d.exponent.toNat := by omega
  rw [value, Nat.cast_mul, hpower, hpower, mul_assoc, ← zpow_add₀ (by norm_num), hsplit]

/-- The value of a double over the units of the least one. -/
theorem numerator_mul (x : Float) :
    (Spaced.ofParts (parts x)).numerator * power 2 1074 =
      units (magnitude x) * (Spaced.ofParts (parts x)).denominator ∧
    (Spaced.ofParts (parts x)).step * power 2 1074 =
      spacing (magnitude x) * (Spaced.ofParts (parts x)).denominator := by
  obtain ⟨hunits, hspacing⟩ := units_magnitude x
  obtain ⟨-, hle, -⟩ := parts_bounds x
  have hsplit : power 2 (parts x).exponent.toNat * power 2 1074 =
      power 2 ((parts x).exponent + 1074).toNat * power 2 (-(parts x).exponent).toNat := by
    have hexponents : (parts x).exponent.toNat + 1074 =
        ((parts x).exponent + 1074).toNat + (-(parts x).exponent).toNat := by omega
    rw [← power_add, ← power_add, hexponents]
  rw [hunits, hspacing, Spaced.ofParts]
  dsimp only
  rw [Nat.mul_assoc, hsplit, Nat.mul_assoc]
  exact ⟨rfl, rfl⟩

/-- Numbers compare as they do when they are counted in other units. -/
theorem lt_le_iff_of_mul_eq {a b : Nat} {p c x y : ℚ} (hp : 0 < p) (hc : 0 < c)
    (ha : (a : ℚ) * p = x * c) (hb : (b : ℚ) * p = y * c) : (a < b ↔ x < y) ∧ (a ≤ b ↔ x ≤ y) := by
  constructor
  · rw [← Nat.cast_lt (α := ℚ), ← mul_lt_mul_iff_of_pos_right hp, ha, hb,
      mul_lt_mul_iff_of_pos_right hc]
  · rw [← Nat.cast_le (α := ℚ), ← mul_le_mul_iff_of_pos_right hp, ha, hb,
      mul_le_mul_iff_of_pos_right hc]

/-- The ends of the interval of a double, in the units in which they are compared. -/
theorem ends_mul {x : Float} (hx : magnitude x ≠ 0) :
    (4 * (Spaced.ofParts (parts x)).numerator -
        (if (Spaced.ofParts (parts x)).narrow then (Spaced.ofParts (parts x)).step
          else 2 * (Spaced.ofParts (parts x)).step)) * power 2 1074 =
      (units (magnitude x - 1) + units (magnitude x)) *
        (2 * (Spaced.ofParts (parts x)).denominator) ∧
    (4 * (Spaced.ofParts (parts x)).numerator + 2 * (Spaced.ofParts (parts x)).step) *
        power 2 1074 =
      (units (magnitude x) + units (magnitude x + 1)) *
        (2 * (Spaced.ofParts (parts x)).denominator) := by
  obtain ⟨hnumerator, hstep⟩ := numerator_mul x
  have hpred := spacing_pred x
  have hbelow := units_succ (magnitude x - 1)
  rw [Nat.sub_add_cancel (Nat.pos_of_ne_zero hx)] at hbelow
  generalize hX : Spaced.ofParts (parts x) = X at *
  have hgap : (if X.narrow then X.step else 2 * X.step) * power 2 1074 =
      2 * spacing (magnitude x - 1) * X.denominator := by
    rw [hpred]
    split
    · exact hstep
    · rw [Nat.mul_assoc, hstep, Nat.mul_assoc]
  constructor
  · rw [Nat.sub_mul, hgap, Nat.mul_assoc 4, hnumerator, hbelow]
    refine Nat.sub_eq_of_eq_add ?_
    ring
  · rw [Nat.add_mul, Nat.mul_assoc 4, Nat.mul_assoc 2, hnumerator, hstep, units_succ]
    ring

/-- What reads back lies in the interval. -/
theorem within_of_readsBack {x : Float} (hx : magnitude x ≠ 0) {d : Decimal}
    (h : (Spaced.ofParts (parts x)).readsBack d = true) : Within (magnitude x) d.inUnits := by
  obtain ⟨hlower, hupper⟩ := ends_mul hx
  have hclosed : (Spaced.ofParts (parts x)).closed = (magnitude x % 2 == 0) := by
    rw [← mantissa_parity]
    rfl
  have hpositive : 0 < (Spaced.ofParts (parts x)).denominator := power_pos (by decide) _
  rw [Spaced.readsBack] at h
  generalize Spaced.ofParts (parts x) = X at *
  -- everything is compared in units of a part of the least double
  have hp : (0 : ℚ) < (power 2 1074 : Nat) := Nat.cast_pos.mpr (power_pos (by decide) 1074)
  have hc : (0 : ℚ) < (2 * X.denominator * power 10 (-d.exponent).toNat : Nat) :=
    Nat.cast_pos.mpr (Nat.mul_pos (Nat.mul_pos Nat.two_pos hpositive) (power_pos (by decide) _))
  have hhere : ((d.significand * power 10 d.exponent.toNat * (4 * X.denominator) : Nat) : ℚ) *
      (power 2 1074 : Nat) =
      2 * d.inUnits * (2 * X.denominator * power 10 (-d.exponent).toNat : Nat) := by
    rw [Nat.cast_mul, ← d.value_mul, Decimal.inUnits]
    push_cast
    ring
  have hend : ∀ {t b : Nat}, t * power 2 1074 = b * (2 * X.denominator) →
      ((t * power 10 (-d.exponent).toNat : Nat) : ℚ) * (power 2 1074 : Nat) =
        (b : ℚ) * (2 * X.denominator * power 10 (-d.exponent).toNat : Nat) := by
    intro t b ht
    rw [← Nat.cast_mul, ← Nat.cast_mul, Nat.mul_right_comm, ht, Nat.mul_assoc]
  obtain ⟨hbelow_lt, hbelow_le⟩ := lt_le_iff_of_mul_eq hp hc (hend hlower) hhere
  obtain ⟨habove_lt, habove_le⟩ := lt_le_iff_of_mul_eq hp hc hhere (hend hupper)
  rw [Nat.cast_add] at hbelow_lt hbelow_le habove_lt habove_le
  rcases Nat.mod_two_eq_zero_or_one (magnitude x) with heven | hodd
  · rw [hclosed, heven, beq_self_eq_true, if_pos rfl, Bool.and_eq_true, decide_eq_true_iff,
      decide_eq_true_iff] at h
    refine ⟨hbelow_le.mp h.1, habove_le.mp h.2, fun hodd => ?_⟩
    rw [heven] at hodd
    cases hodd
  · have hopen : ¬ ((1 == 0) : Bool) = true := by decide
    rw [hclosed, hodd, if_neg hopen, Bool.and_eq_true, decide_eq_true_iff,
      decide_eq_true_iff] at h
    have hinner := And.intro (hbelow_lt.mp h.1) (habove_lt.mp h.2)
    exact ⟨hinner.1.le, hinner.2.le, fun _ => hinner⟩

/-! ## The fewest digits -/

theorem Decimal.value_strip (d : Decimal) : d.strip.value = d.value := by
  fun_induction Decimal.strip d with
  | case1 d h ih =>
      have hsplit : d.significand = d.significand / 10 * 10 := by omega
      rw [ih, value, value]
      dsimp only
      rw [zpow_add₀ (by norm_num), zpow_one]
      conv_rhs => rw [hsplit]
      push_cast
      ring
  | case2 d h => rfl

/-- The exact value of a double as a decimal. -/
theorem inUnits_exact (x : Float) :
    (Decimal.mk ((Spaced.ofParts (parts x)).numerator * power 5 (-(parts x).exponent).toNat)
      (min (parts x).exponent 0)).inUnits = units (magnitude x) := by
  obtain ⟨hnumerator, -⟩ := numerator_mul x
  have hdenominator : (Spaced.ofParts (parts x)).denominator =
      power 2 (-(parts x).exponent).toNat := rfl
  rw [hdenominator] at hnumerator
  generalize hdigits : (-(parts x).exponent).toNat = n at *
  generalize (Spaced.ofParts (parts x)).numerator = num at *
  have hvalue := (Decimal.mk (num * power 5 n) (min (parts x).exponent 0)).value_mul
  dsimp only at hvalue
  have hwhole : (min (parts x).exponent 0).toNat = 0 := by omega
  have hplaces : (-min (parts x).exponent 0).toNat = n := by omega
  rw [hwhole, hplaces, Number.power_zero, Nat.mul_one] at hvalue
  -- ten is twice five, so nothing is left of the fives
  have hten : power 10 n = power 5 n * power 2 n := Nat.mul_pow 5 2 n
  have hne : ((power 10 n : Nat) : ℚ) ≠ 0 := Nat.cast_ne_zero.mpr (power_pos (by decide) n).ne'
  refine mul_right_cancel₀ hne ?_
  rw [Decimal.inUnits, mul_right_comm, hvalue, hten, ← Nat.cast_mul, ← Nat.cast_mul,
    Nat.mul_right_comm, hnumerator]
  ring_nf

/-- **Fewest digits.** Whichever digits are chosen for a double, they are in its interval. -/
theorem within_fewest {x : Float} (hx : magnitude x ≠ 0) :
    Within (magnitude x) (fewest (parts x)).inUnits := by
  rw [Decimal.inUnits, fewest, Decimal.value_strip]
  cases hfound : (List.range 17).findSome? fun (n : Nat) =>
      (Spaced.ofParts (parts x)).onGrid? (scale (Spaced.ofParts (parts x)).numerator
        (Spaced.ofParts (parts x)).denominator - 1 - n) with
  | some d =>
      obtain ⟨n, -, hgrid⟩ := List.exists_of_findSome?_eq_some hfound
      exact within_of_readsBack hx (List.find?_some hgrid)
  | none =>
      have hexact := within_units hx
      rw [← inUnits_exact] at hexact
      exact hexact

example : fewest (parts 5e-324) = ⟨5, -324⟩ := by decide +kernel
example : fewest (parts 2.98023223876953125e-8) = ⟨29802322387695312, -24⟩ := by decide +kernel

end Formulary.Number
