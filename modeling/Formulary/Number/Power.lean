/-!
# Powers

Powers of natural numbers: the units that doubles and decimals are counted in are
powers of two and of ten. Powers of rationals with whole exponents, which may be
so large that only the powers of one and minus one can be written down.
-/

namespace Formulary.Number

/-- The base times itself, as often as the exponent says. -/
@[inline] def power (base exponent : Nat) : Nat := Nat.pow base exponent

@[simp] theorem power_zero (b : Nat) : power b 0 = 1 := rfl

theorem power_succ (b k : Nat) : power b (k + 1) = power b k * b := rfl

theorem power_add (b j k : Nat) : power b (j + k) = power b j * power b k := by
  induction k with
  | zero => simp
  | succ k ih => rw [← Nat.add_assoc, power_succ, power_succ, ih, Nat.mul_assoc]

theorem power_pos {b : Nat} (h : 0 < b) (k : Nat) : 0 < power b k := by
  induction k with
  | zero => exact Nat.one_pos
  | succ k ih => exact Nat.mul_pos ih h

/-- A power with a whole exponent. Those of one and minus one are told by its parity. -/
def wholePower (x : Rat) (n : Int) : Rat :=
  if x = 1 then 1
  else if x = -1 then if n % 2 = 0 then 1 else -1
  else x ^ n

theorem wholePower_add_one (x : Rat) (n : Nat) :
    wholePower x (n + 1 : Nat) = wholePower x (n : Nat) * x := by
  unfold wholePower
  split
  · next h => rw [h]; decide +kernel
  · split
    · next h =>
        subst h
        by_cases hn : (n : Int) % 2 = 0
        · rw [if_neg (by omega), if_pos hn]; decide +kernel
        · rw [if_pos (by omega), if_neg hn]; decide +kernel
    · rw [Rat.zpow_natCast, Rat.zpow_natCast, Rat.pow_succ]

theorem wholePower_neg (x : Rat) (n : Int) : wholePower x (-n) = (wholePower x n)⁻¹ := by
  unfold wholePower
  split
  · decide +kernel
  · split
    · by_cases hn : n % 2 = 0
      · rw [if_pos hn, if_pos (by omega)]; decide +kernel
      · rw [if_neg hn, if_neg (by omega)]; decide +kernel
    · exact Rat.zpow_neg x n

/-- It is the power that it is meant to be. -/
theorem wholePower_eq (x : Rat) (n : Int) : wholePower x n = x ^ n := by
  have h : ∀ n : Nat, wholePower x n = x ^ (n : Int) := by
    intro n
    induction n with
    | zero =>
        unfold wholePower
        split
        · exact (Rat.zpow_zero x).symm
        · split
          · exact (Rat.zpow_zero x).symm
          · rfl
    | succ n ih =>
        rw [wholePower_add_one, ih, Rat.zpow_natCast, Rat.zpow_natCast, Rat.pow_succ]
  obtain ⟨m, rfl | rfl⟩ := n.eq_nat_or_neg
  · exact h m
  · rw [wholePower_neg, h, Rat.zpow_neg]

end Formulary.Number
