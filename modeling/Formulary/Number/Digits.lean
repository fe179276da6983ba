import Formulary.Number.Power

/-!
# Decimal digits

Writing a natural number in decimal and reading a run of digits back. Digits
are the ten ASCII ones, the most significant first.
-/

namespace Formulary.Number

def digitChar (d : Nat) : Char := Char.ofNat (48 + d)

def digitValue (c : Char) : Nat := c.toNat - 48

/-- The decimal digits of a number, without leading zeros. -/
def digits (n : Nat) : List Char :=
  if n < 10 then [digitChar n] else digits (n / 10) ++ [digitChar (n % 10)]

/-- The number that a run of digits stands for; leading zeros change nothing. -/
def ofDigits (cs : List Char) : Nat := cs.foldl (fun n c => 10 * n + digitValue c) 0

/-- An integer in decimal, a minus sign in front of a negative one. -/
def integerDigits (n : Int) : List Char :=
  if n < 0 then '-' :: digits n.natAbs else digits n.natAbs

/-- The most digits with which an integer is written out. -/
def mostDigits : Nat := 4300

/-- An integer in decimal, unless it has more than `mostDigits` digits. -/
def integerText? (n : Int) : Option (List Char) :=
  if n.natAbs < power 10 mostDigits then some (integerDigits n) else none

theorem ofDigits_append_singleton (cs : List Char) (c : Char) :
    ofDigits (cs ++ [c]) = 10 * ofDigits cs + digitValue c := by
  simp [ofDigits]

theorem digitValue_digitChar {d : Nat} (h : d < 10) : digitValue (digitChar d) = d := by
  match d, h with
  | 0, _ | 1, _ | 2, _ | 3, _ | 4, _ | 5, _ | 6, _ | 7, _ | 8, _ | 9, _ => decide

theorem isDigit_digitChar {d : Nat} (h : d < 10) : (digitChar d).isDigit = true := by
  match d, h with
  | 0, _ | 1, _ | 2, _ | 3, _ | 4, _ | 5, _ | 6, _ | 7, _ | 8, _ | 9, _ => decide

/-- What is written reads back as the same number. -/
theorem ofDigits_digits (n : Nat) : ofDigits (digits n) = n := by
  fun_induction digits n with
  | case1 n h => simp [ofDigits, digitValue_digitChar h]
  | case2 n h ih =>
      rw [ofDigits_append_singleton, ih, digitValue_digitChar (Nat.mod_lt _ (by omega))]
      omega

theorem digits_ne_nil (n : Nat) : digits n ≠ [] := by
  unfold digits
  split <;> simp

theorem all_isDigit_digits (n : Nat) : (digits n).all Char.isDigit = true := by
  fun_induction digits n with
  | case1 n h => simp [isDigit_digitChar h]
  | case2 n h ih => simp [ih, isDigit_digitChar (Nat.mod_lt n (by omega : 0 < 10))]

end Formulary.Number
