import Formulary.Proofs.Formula.Preorder
import Formulary.Proofs.Number.Predecessor
import Formulary.Proofs.Value.Meaning
import Formulary.Proofs.Value.Scalar
import Formulary.Proofs.Value.Sums
import Formulary.Value.Quantity

/-!
# Exact values

Among exact rationals it does not matter in which order a sum is taken, so a mean
that is added up in blocks is the mean as it is meant (`meanOf_rat`). Whoever
evaluates a formula and whoever reads it as mathematics thus find the same value,
and where no divisor is zero, and no zero is raised to a negative power, it is the
value that sums, products and powers have in the field of rationals (`ExactAt`).
-/

namespace Formulary

open Binary64 (isIntegral parts)
open Grid (scalar)

/-! ## Sums of rationals -/

namespace Arithmetic

theorem ofFloat_rat_of_mantissa_eq_zero {c : Float} (hfinite : c.isFinite = true)
    (hzero : (parts c).mantissa = 0) : rat.ofFloat c = 0 :=
  (if_pos hfinite).trans (Binary64.Parts.toRat_of_mantissa_eq_zero hzero)

theorem Sums.eq_sum {s : Multiset ℚ} {a : ℚ} (h : rat.Sums s a) : a = s.sum := by
  induction h with
  | zero => exact ofFloat_rat_of_mantissa_eq_zero (by decide) Binary64.mantissa_zero
  | negZero => exact ofFloat_rat_of_mantissa_eq_zero (by decide) Binary64.mantissa_negZero
  | term x => exact (Multiset.sum_singleton x).symm
  | add _ _ ihs iht =>
      rw [Multiset.sum_add, ← ihs, ← iht]
      rfl

theorem meanOf_rat (alone : Bool) (terms : List ℚ) :
    rat.meanOf alone terms = terms.sum / terms.length := by
  rw [meanOf, (sums_terms (A := rat) alone terms).eq_sum, Multiset.sum_coe]
  rfl

theorem average_rat (terms : List ℚ) : rat.average terms = terms.sum / terms.length := by
  rw [List.sum_eq_foldl]
  rfl

theorem varianceOf_rat (alone : Bool) (terms : List ℚ) :
    rat.varianceOf alone terms =
      rat.sub (rat.average (terms.map rat.square)) (rat.square (rat.average terms)) := by
  rw [varianceOf, meanOf_rat, meanOf_rat, average_rat, average_rat]

theorem ofFloat_rat {c : Float} (h : isIntegral c = true) : rat.ofFloat c = (parts c).intValue := by
  obtain ⟨hfinite, hintegral⟩ := (Binary64.isIntegral_iff c).mp h
  exact (if_pos hfinite).trans (Binary64.Parts.toRat_eq_intValue hintegral)

/-- A power with an integer for its exponent. -/
theorem pow_rat {c : Float} (hc : isIntegral c = true) (a : ℚ) :
    rat.pow a (rat.ofFloat c) = a ^ (parts c).intValue := by
  rw [ofFloat_rat hc]
  show (Number.exactPower? a ((parts c).intValue : ℚ)).getD 0 = _
  rw [Number.exactPower?_of_den (Rat.den_intCast _), Rat.num_intCast]
  rfl

end Arithmetic

namespace Formula

/-! ## Rational formulas -/

/-- A formula that is built without logarithms, from integers, and with integers for exponents. -/
inductive IsRational : Formula → Prop
  | const {c : Float} : isIntegral c = true → IsRational (.const c)
  | var {name : String} : name ∈ argumentNames → IsRational (.var name)
  | plus {x y : Formula} : IsRational x → IsRational y → IsRational (plus x y)
  | minus {x y : Formula} : IsRational x → IsRational y → IsRational (minus x y)
  | negate {x : Formula} : IsRational x → IsRational (negate x)
  | times {x y : Formula} : IsRational x → IsRational y → IsRational (times x y)
  | divide {x y : Formula} : IsRational x → IsRational y → IsRational (divide x y)
  | power {x : Formula} {c : Float} : IsRational x → isIntegral c = true →
      IsRational (power x (.const c))
  | mean {xs : List Formula} : xs ≠ [] → (∀ x ∈ xs, IsRational x) → IsRational (mean xs)
  | variance {xs : List Formula} : xs ≠ [] → (∀ x ∈ xs, IsRational x) →
      IsRational (op .variance xs)

/-- No divisor in a formula is zero, and no zero is raised to a negative power. -/
structure DefinedAt (point : String → ℚ) (t : Formula) : Prop where
  divisor {x y : Formula} : divide x y ∈ t.nodes .depthFirst → y.meaning .rat point ≠ .ok 0
  base {x : Formula} {c : Float} : power x (.const c) ∈ t.nodes .depthFirst →
    (parts c).intValue < 0 → x.meaning .rat point ≠ .ok 0

/-- The value of a rational formula in the field of rationals, where no divisor is zero and no zero
is raised to a negative power. -/
inductive ExactAt (point : String → ℚ) : Formula → ℚ → Prop
  | const (c : Float) : ExactAt point (.const c) (parts c).intValue
  | var (name : String) : ExactAt point (.var name) (point name)
  | plus {x y : Formula} {a b : ℚ} : ExactAt point x a → ExactAt point y b →
      ExactAt point (plus x y) (a + b)
  | minus {x y : Formula} {a b : ℚ} : ExactAt point x a → ExactAt point y b →
      ExactAt point (minus x y) (a - b)
  | negate {x : Formula} {a : ℚ} : ExactAt point x a → ExactAt point (negate x) (-a)
  | times {x y : Formula} {a b : ℚ} : ExactAt point x a → ExactAt point y b →
      ExactAt point (times x y) (a * b)
  | divide {x y : Formula} {a b : ℚ} : ExactAt point x a → ExactAt point y b → b ≠ 0 →
      ExactAt point (divide x y) (a / b)
  | power {x : Formula} {c : Float} {a : ℚ} : ExactAt point x a →
      (a ≠ 0 ∨ 0 ≤ (parts c).intValue) →
      ExactAt point (power x (.const c)) (a ^ (parts c).intValue)
  | mean {xs : List Formula} {as : List ℚ} : List.Forall₂ (ExactAt point) xs as → as ≠ [] →
      ExactAt point (mean xs) (as.sum / as.length)
  | variance {xs : List Formula} {as : List ℚ} : List.Forall₂ (ExactAt point) xs as → as ≠ [] →
      ExactAt point (op .variance xs)
        ((as.map (· ^ 2)).sum / as.length - (as.sum / as.length) ^ 2)

/-- What a formula is worth: its value when it is evaluated is what it means, and that is exact. -/
structure Worth (point : String → ℚ) (t : Formula) (q : ℚ) : Prop where
  hasValue : t.HasValue .rat (argumentNames.map point) q
  meaning : t.meaning .rat point = .ok q
  exactAt : t.ExactAt point q

variable {point : String → ℚ} {x y : Formula} {a b : ℚ}

theorem DefinedAt.operand {t : Formula} (ht : t.DefinedAt point) (hx : x ∈ t.operands) :
    x.DefinedAt point where
  divisor hnode := ht.divisor (mem_nodes_of_operand hx hnode)
  base hnode := ht.base (mem_nodes_of_operand hx hnode)

theorem DefinedAt.pair {o : Operation} (h : (op o [x, y]).DefinedAt point) :
    x.DefinedAt point ∧ y.DefinedAt point :=
  ⟨h.operand List.mem_cons_self, h.operand (List.mem_cons_of_mem _ List.mem_cons_self)⟩

/-! ## What each operation is worth -/

theorem worth_const {c : Float} (hc : isIntegral c = true) :
    (Formula.const c).Worth point (parts c).intValue := by
  have heuler : (c == Binary64.eulerNumber) = false := by
    refine Bool.eq_false_iff.mpr fun hbeq => ?_
    rcases Binary64.eq_or_zero_of_beq hbeq with rfl | ⟨-, hzero⟩
    · exact absurd hc (by decide)
    · exact absurd hzero (by decide)
  rw [← Arithmetic.ofFloat_rat hc]
  refine ⟨hasValue_const c, meaning_const heuler, ?_⟩
  rw [Arithmetic.ofFloat_rat hc]
  exact .const c

section

variable (hx : x.Worth point a)
include hx

theorem worth_negate : (negate x).Worth point (-a) where
  hasValue := hasValue_negate hx.hasValue
  meaning := meaning_negate hx.meaning
  exactAt := .negate hx.exactAt

theorem worth_power {c : Float} (hc : isIntegral c = true)
    (hbase : a ≠ 0 ∨ 0 ≤ (parts c).intValue) :
    (power x (.const c)).Worth point (a ^ (parts c).intValue) where
  hasValue := by
    rw [← Arithmetic.pow_rat hc]
    exact hasValue_power hx.hasValue (hasValue_const c)
  meaning := by
    rw [← Arithmetic.pow_rat hc, Arithmetic.ofFloat_rat hc]
    exact meaning_power hx.meaning (worth_const hc).meaning
  exactAt := .power hx.exactAt hbase

variable (hy : y.Worth point b)
include hy

theorem worth_plus : (plus x y).Worth point (a + b) where
  hasValue := hasValue_plus hx.hasValue hy.hasValue
  meaning := meaning_plus hx.meaning hy.meaning
  exactAt := .plus hx.exactAt hy.exactAt

theorem worth_minus : (minus x y).Worth point (a - b) where
  hasValue := hasValue_minus hx.hasValue hy.hasValue
  meaning := meaning_minus hx.meaning hy.meaning
  exactAt := .minus hx.exactAt hy.exactAt

theorem worth_times : (times x y).Worth point (a * b) where
  hasValue := hasValue_times hx.hasValue hy.hasValue
  meaning := meaning_times hx.meaning hy.meaning
  exactAt := .times hx.exactAt hy.exactAt

theorem worth_divide (hb : b ≠ 0) : (divide x y).Worth point (a / b) where
  hasValue := hasValue_divide hx.hasValue hy.hasValue
  meaning := meaning_divide hx.meaning hy.meaning
  exactAt := .divide hx.exactAt hy.exactAt hb

end

theorem exists_worths {xs : List Formula} (h : ∀ x ∈ xs, ∃ q, x.Worth point q) :
    ∃ as, List.Forall₂ (Worth point) xs as := by
  induction xs with
  | nil => exact ⟨[], .nil⟩
  | cons x xs ih =>
      obtain ⟨⟨q, hq⟩, hxs⟩ := List.forall_mem_cons.mp h
      obtain ⟨as, has⟩ := ih hxs
      exact ⟨q :: as, .cons hq has⟩

theorem meanings_of_worths {xs : List Formula} {as : List ℚ}
    (h : List.Forall₂ (Worth point) xs as) : meanings .rat point xs = .ok as :=
  meanings_eq_ok_iff.mpr (h.imp fun _ _ hx => hx.meaning)

section

variable {xs : List Formula} {as : List ℚ} (h : List.Forall₂ (Worth point) xs as) (hne : as ≠ [])
include h hne

/-- The values that are added up in blocks are those that are meant. -/
theorem worth_mean : (mean xs).Worth point (as.sum / as.length) where
  hasValue := by
    rw [← Arithmetic.meanOf_rat true]
    exact hasValue_mean hne (h.imp fun _ _ hx => hx.hasValue)
  meaning := by
    rw [← Arithmetic.average_rat]
    exact meaning_mean (meanings_of_worths h)
  exactAt := .mean (h.imp fun _ _ hx => hx.exactAt) hne

theorem worth_variance : (op .variance xs).Worth point (Arithmetic.rat.varianceOf true as) where
  hasValue := hasValue_variance hne (h.imp fun _ _ hx => hx.hasValue)
  meaning := by
    rw [Arithmetic.varianceOf_rat]
    exact meaning_op (meanings_of_worths h) rfl
  exactAt := by
    have hsquare : Arithmetic.rat.square = fun q : ℚ => q ^ 2 := funext fun q => (sq q).symm
    rw [Arithmetic.varianceOf, Arithmetic.meanOf_rat, Arithmetic.meanOf_rat, List.length_map,
      hsquare]
    exact .variance (h.imp fun _ _ hx => hx.exactAt) hne

end

/-- **Worth.** Where a rational formula is defined, evaluating it gives what it means. -/
theorem IsRational.exists_worth {t : Formula} (ht : t.IsRational) (hdefined : t.DefinedAt point) :
    ∃ q, t.Worth point q := by
  induction ht with
  | const hc => exact ⟨_, worth_const hc⟩
  | @var name hname => exact ⟨_, hasValue_name .rat point hname, rfl, .var name⟩
  | plus _ _ ihx ihy =>
      obtain ⟨a, ha⟩ := ihx hdefined.pair.1
      obtain ⟨b, hb⟩ := ihy hdefined.pair.2
      exact ⟨_, worth_plus ha hb⟩
  | minus _ _ ihx ihy =>
      obtain ⟨a, ha⟩ := ihx hdefined.pair.1
      obtain ⟨b, hb⟩ := ihy hdefined.pair.2
      exact ⟨_, worth_minus ha hb⟩
  | negate _ ihx =>
      obtain ⟨a, ha⟩ := ihx (hdefined.operand List.mem_cons_self)
      exact ⟨_, worth_negate ha⟩
  | times _ _ ihx ihy =>
      obtain ⟨a, ha⟩ := ihx hdefined.pair.1
      obtain ⟨b, hb⟩ := ihy hdefined.pair.2
      exact ⟨_, worth_times ha hb⟩
  | divide _ _ ihx ihy =>
      obtain ⟨a, ha⟩ := ihx hdefined.pair.1
      obtain ⟨b, hb⟩ := ihy hdefined.pair.2
      have hne : b ≠ 0 := by
        rintro rfl
        exact hdefined.divisor (self_mem_nodes _) hb.meaning
      exact ⟨_, worth_divide ha hb hne⟩
  | @power x c _ hc ihx =>
      obtain ⟨a, ha⟩ := ihx hdefined.pair.1
      have hbase : a ≠ 0 ∨ 0 ≤ (parts c).intValue := by
        rw [or_iff_not_imp_right, not_le]
        rintro hnegative rfl
        exact hdefined.base (self_mem_nodes _) hnegative ha.meaning
      exact ⟨_, worth_power ha hc hbase⟩
  | mean hne _ ih =>
      obtain ⟨as, has⟩ := exists_worths fun x hx => ih x hx (hdefined.operand hx)
      exact ⟨_, worth_mean has fun h => hne (List.forall₂_nil_right_iff.mp (h ▸ has))⟩
  | variance hne _ ih =>
      obtain ⟨as, has⟩ := exists_worths fun x hx => ih x hx (hdefined.operand hx)
      exact ⟨_, worth_variance has fun h => hne (List.forall₂_nil_right_iff.mp (h ▸ has))⟩

/-- **Both semantics.** At every point of rationals where no divisor is zero, and no zero is raised
to a negative power, evaluating a rational formula with exact arithmetic, its sums taken in blocks,
gives its exact value, which is the one that it has in the field of rationals. -/
theorem evaluate_eq_rationalAt {t : Formula} (ht : t.IsRational) (x y z : ℚ)
    (hdefined : t.DefinedAt (pointOf 0 [x, y, z])) :
    ∃ q, t.evaluate .rat (numberAt [x, y, z]) = .ok (scalar q) ∧
      t.rationalAt [x, y, z] = .ok q ∧ t.ExactAt (pointOf 0 [x, y, z]) q := by
  obtain ⟨q, hvalue, hmeaning, hexact⟩ := ht.exists_worth hdefined
  exact ⟨q, hvalue, hmeaning, hexact⟩

/-- A quotient by a negative power, and a variance. -/
def quotientAndVariance : Formula :=
  plus (divide (.var "x") (power (.var "y") (.const (-2))))
    (op .variance [.var "x", .var "y", .const 3])

theorem isRational_quotientAndVariance : quotientAndVariance.IsRational := by
  have hx : (var "x").IsRational := .var (by decide)
  have hy : (var "y").IsRational := .var (by decide)
  have hthree : (const 3).IsRational := .const (by decide)
  refine .plus (.divide hx (.power hy (by decide))) (.variance (List.cons_ne_nil _ _) ?_)
  simp only [List.forall_mem_cons]
  exact ⟨hx, hy, hthree, List.forall_mem_nil _⟩

/-- There is one divisor, and there is one power. -/
theorem definedAt_quotientAndVariance {point : String → ℚ}
    (hpower : (power (.var "y") (.const (-2))).meaning .rat point ≠ .ok 0)
    (hy : point "y" ≠ 0) : quotientAndVariance.DefinedAt point := by
  constructor
  · intro x y hnode
    rw [nodes_depthFirst] at hnode
    obtain ⟨-, rfl⟩ : x = var "x" ∧ y = power (.var "y") (.const (-2)) := by
      simpa [quotientAndVariance, plus, divide, power, op, preorder, preorderAll,
        Operation.symbol] using hnode
    exact hpower
  · intro x c hnode _ hzero
    rw [nodes_depthFirst] at hnode
    obtain ⟨rfl, -⟩ : x = var "y" ∧ c = -2 := by
      simpa [quotientAndVariance, plus, divide, power, op, preorder, preorderAll,
        Operation.symbol] using hnode
    exact hy (Except.ok.inj hzero)

theorem evaluate_eq_rationalAt_quotientAndVariance :
    quotientAndVariance.IsRational ∧
      quotientAndVariance.DefinedAt (pointOf 0 [3 / 2, -2, 0]) ∧
      ∃ q, quotientAndVariance.evaluate .rat (numberAt [3 / 2, -2, 0]) = .ok (scalar q) ∧
        quotientAndVariance.rationalAt [3 / 2, -2, 0] = .ok q ∧
        quotientAndVariance.ExactAt (pointOf 0 [3 / 2, -2, 0]) q := by
  have hdefined : quotientAndVariance.DefinedAt (pointOf 0 [3 / 2, -2, 0]) :=
    definedAt_quotientAndVariance (by decide +kernel) (by decide +kernel)
  exact ⟨isRational_quotientAndVariance, hdefined,
    evaluate_eq_rationalAt isRational_quotientAndVariance _ _ _ hdefined⟩

example : quotientAndVariance.rationalAt [3 / 2, -2, 0] = .ok (187 / 18) := by decide +kernel

end Formula
end Formulary
