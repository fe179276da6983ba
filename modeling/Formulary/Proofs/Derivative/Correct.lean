import Formulary.Proofs.Derivative.Integrals

/-!
# Correctness of differentiation

What the rules of differentiation come to, for formulas without problems and
points at which they are regular. A count is a double, so the mean of operands
is their sum over their number as long as a double can hold that number.
-/

namespace Formulary.Formula

/-- **Differentiation is correct.** At a regular point a formula without problems has a
derivative. Among the reals it means the partial derivative of the formula, and in a field with a
derivation the derivation of the formula; the counts in means are exact up to `2 ^ 53`. -/
theorem derivative_correct :
    (∀ (t : Formula) (v : String) (point : String → ℝ), t.problems Registry.standard = [] →
      t.RegularAt .real Operation.RealRegular point →
      ∃ d f slope, t.derivative v = .ok d ∧
        (∀ s, t.meaning .real (Function.update point v s) = .ok (f s)) ∧
        d.meaning .real point = .ok slope ∧ HasDerivAt f slope (point v)) ∧
    (∀ (K : Type) [Field K] [CharZero K] (E : DifferentialField K) (t : Formula) (v : String)
      (point : String → K), t.problems Registry.standard = [] →
      (∀ name ∈ argumentNames, E.der (point name) = if v = name then 1 else 0) →
      t.RegularAt E.arithmetic E.Regular point →
      ∃ d a, t.derivative v = .ok d ∧ t.meaning E.arithmetic point = .ok a ∧
        d.meaning E.arithmetic point = .ok (E.der a)) ∧
    ∀ n ≤ Number.power 2 53, Arithmetic.real.ofNat n = n := by
  refine ⟨?_, ?_, ?_⟩
  · intro t v point hvalid hregular
    exact hasDerivAt_meaning v hvalid hregular
  · intro K _ _ E t v point hvalid hpoint hregular
    exact der_meaning E hvalid hpoint hregular
  · intro n hn
    exact Arithmetic.ofNat_real hn

/-- A square times a logarithm whose base varies. -/
def squareTimesLog : Formula :=
  times (power (.var "x") two) (log (.var "x") (.var "y"))

theorem problems_squareTimesLog : squareTimesLog.problems Registry.standard = [] := by
  rw [problems, nodes_depthFirst]
  decide

theorem regularAt_squareTimesLog {α : Type} {A : Arithmetic α}
    {smooth : Operation → List α → Prop} {point : String → α}
    (hpower : smooth .power [point "x", A.ofFloat 2])
    (hlog : smooth .log [point "x", point "y"])
    (htimes : ∀ a b, smooth .times [a, b]) : squareTimesLog.RegularAt A smooth point := by
  have hx : (var "x").meaning A point = .ok (point "x") := rfl
  have hy : (var "y").meaning A point = .ok (point "y") := rfl
  have htwo : two.meaning A point = .ok (A.ofFloat 2) := meaning_const (by decide)
  refine regularAt_op (meanings_pair (meaning_power hx htwo) (meaning_log hx hy)) (htimes _ _) ?_
  have hsquare := regularAt_op (meanings_pair hx htwo) hpower ⟨trivial, trivial, trivial⟩
  have hquotient := regularAt_op (meanings_pair hx hy) hlog ⟨trivial, trivial, trivial⟩
  exact ⟨hsquare, hquotient, trivial⟩

/-- A point of the reals, and a point of the rational functions in unknowns with integrals. -/
theorem derivative_correct_squareTimesLog :
    (∃ d f slope, squareTimesLog.derivative "x" = .ok d ∧
      (∀ s, squareTimesLog.meaning .real (Function.update (pointOf 0 [3, 2]) "x" s) = .ok (f s)) ∧
      d.meaning .real (pointOf 0 [3, 2]) = .ok slope ∧
      HasDerivAt f slope (pointOf (0 : ℝ) [3, 2] "x")) ∧
    ∃ d a, squareTimesLog.derivative "x" = .ok d ∧
      squareTimesLog.meaning RationalFunction.differentialField.arithmetic
        (pointOf 0 [RationalFunction.integral 1, 2]) = .ok a ∧
      d.meaning RationalFunction.differentialField.arithmetic
        (pointOf 0 [RationalFunction.integral 1, 2]) = .ok (RationalFunction.der a) := by
  refine ⟨derivative_correct.1 _ _ _ problems_squareTimesLog ?_,
    derivative_correct.2.1 _ RationalFunction.differentialField _ _ _ problems_squareTimesLog ?_ ?_⟩
  · refine regularAt_squareTimesLog ?_ ?_ fun _ _ => trivial
    · show (0 : ℝ) < 3
      norm_num
    · show (3 : ℝ) ≠ 0 ∧ (2 : ℝ) ≠ 0 ∧ |(3 : ℝ)| ≠ 1
      norm_num
  · simp only [argumentNames, List.forall_mem_cons]
    refine ⟨RationalFunction.der_integral 1, RationalFunction.der_two, ?_, List.forall_mem_nil _⟩
    exact map_zero RationalFunction.der
  · have hder : RationalFunction.der (RationalFunction.integral 1) ≠ 0 := by
      rw [RationalFunction.der_integral]
      exact one_ne_zero
    have hne := RationalFunction.ne_zero_of_der hder
    refine regularAt_squareTimesLog hne ⟨hne, ?_, RationalFunction.ln_ne_zero hder⟩
      fun _ _ => trivial
    exact (two_ne_zero : (2 : RationalFunction) ≠ 0)

end Formulary.Formula
