import Formulary.Proofs.Derivative.Closure
import Formulary.Proofs.Formula.Levels

/-!
# The growth of derivatives

A rule copies its operands a few times but differentiates each of them once, the rule of
the variance apart. So it adds at most twenty times the size of the operation to the sizes
of the slopes of its operands (`size_dual?_le`). The formulas on one level are not larger
together than the whole, so a derivative has at most twenty times as many nodes as the
formula has on each of its levels.
-/

namespace Formulary

namespace Formula

theorem size_pos (t : Formula) : 0 < t.size := by
  rw [size_eq]
  omega

theorem length_le_sizeAll (xs : List Formula) : xs.length ≤ sizeAll xs := by
  induction xs with
  | nil => exact Nat.le_refl 0
  | cons x xs ih =>
      have hx := x.size_pos
      rw [List.length_cons, sizeAll]
      omega

theorem size_op (o : Operation) (xs : List Formula) : (op o xs).size = 1 + sizeAll xs := rfl

theorem size_single (o : Operation) (x : Formula) : (op o [x]).size = 1 + x.size := rfl

theorem size_pair (o : Operation) (x y : Formula) : (op o [x, y]).size = 1 + x.size + y.size := by
  rw [size_op, sizeAll, sizeAll, sizeAll]
  omega

theorem size_ln (x : Formula) : (ln x).size = 2 + x.size := by
  rw [ln, log, size_pair]
  rfl

end Formula

/-! ## The rules -/

namespace Dual

/-- The sizes of the slopes of some operands together. -/
def slopeSizes (ds : List Dual) : Nat := (ds.map fun d => d.slope.size).sum

theorem slopeSizes_cons (d : Dual) (ds : List Dual) :
    slopeSizes (d :: ds) = d.slope.size + slopeSizes ds := by
  rw [slopeSizes, List.map_cons, List.sum_cons]
  rfl

/-- Slopes that are added up in a row, with one more node for each of them. -/
theorem size_total (ds : List Dual) (start : Formula) :
    (ds.foldl (fun total d => Formula.plus total d.slope) start).size =
      start.size + ds.length + slopeSizes ds := by
  induction ds generalizing start with
  | nil => rfl
  | cons d ds ih =>
      rw [List.foldl_cons, ih, Formula.plus, Formula.size_pair, slopeSizes_cons, List.length_cons]
      omega

end Dual

namespace Operation

open Formula

/-- **Rules.** A rule that differentiates each operand once adds at most twenty times the size of
the operation. -/
theorem size_dual?_le {o : Operation} {ds : List Dual} {dual : Dual} (ho : o ≠ .variance)
    (h : o.dual? ds = some dual) :
    dual.slope.size ≤ 20 * dual.formula.size + Dual.slopeSizes ds := by
  have hone : one.size = 1 := rfl
  have hcount : ∀ n, (count n).size = 1 := fun _ => rfl
  have hzero : zero.size = 1 := rfl
  cases rule_of_dual? h with
  | plus x y =>
      simp only [Dual.plus, Formula.plus, size_pair, Dual.slopeSizes_cons]
      omega
  | minus x y =>
      simp only [Dual.minus, Formula.minus, size_pair, Dual.slopeSizes_cons]
      omega
  | negate x =>
      simp only [Dual.negate, Formula.negate, size_single, Dual.slopeSizes_cons]
      omega
  | times x y =>
      simp only [Dual.times, Formula.times, Formula.plus, size_pair, Dual.slopeSizes_cons]
      omega
  | divide x y =>
      simp only [Dual.divide, Formula.divide, Formula.minus, Formula.times, size_pair,
        Dual.slopeSizes_cons]
      omega
  | power x y =>
      simp only [Dual.power, Formula.power, Formula.minus, Formula.times, Formula.plus, size_pair,
        size_ln, hone, Dual.slopeSizes_cons]
      omega
  | log x y =>
      simp only [Dual.log, Formula.log, Formula.divide, Formula.minus, Formula.times, size_pair,
        size_ln, hone, Dual.slopeSizes_cons]
      omega
  | mean =>
      have hlength := length_le_sizeAll (ds.map Dual.formula)
      rw [List.length_map] at hlength
      rw [Dual.mean, Formula.mean, size_op, Formula.divide, size_pair, Dual.size_total, hzero,
        hcount]
      omega
  | variance => exact absurd rfl ho

end Operation

/-! ## Levels -/

namespace Formula

/-- Slopes that are small against their formulas are small together. -/
theorem slopeSizes_le {ds : List Dual}
    (h : ∀ d ∈ ds, d.slope.size ≤ 20 * d.formula.size * d.formula.depth) :
    Dual.slopeSizes ds ≤
      20 * sizeAll (ds.map Dual.formula) * depthAll (ds.map Dual.formula) := by
  induction ds with
  | nil => exact Nat.le_refl 0
  | cons d ds ih =>
      obtain ⟨hd, hds⟩ := List.forall_mem_cons.mp h
      rw [Dual.slopeSizes_cons, List.map_cons, sizeAll, depthAll]
      have hfirst := Nat.mul_le_mul_left (20 * d.formula.size)
        (Nat.le_max_left d.formula.depth (depthAll (ds.map Dual.formula)))
      have hrest := Nat.mul_le_mul_left (20 * sizeAll (ds.map Dual.formula))
        (Nat.le_max_right d.formula.depth (depthAll (ds.map Dual.formula)))
      rw [Nat.mul_add, Nat.add_mul]
      exact Nat.add_le_add (hd.trans hfirst) ((ih hds).trans hrest)

/-- **Growth.** A derivative that no variance has gone into has at most twenty times as many nodes
as the formula has on each of its levels. -/
theorem size_derivative_le {t d : Formula} {v : String} (hvar : "var" ∉ t.symbols)
    (hd : t.derivative v = .ok d) : d.size ≤ 20 * t.size * t.depth := by
  induction t using operandsInduction generalizing d with
  | const value =>
      cases hd
      exact (by decide : 1 ≤ 20)
  | var name =>
      cases hd
      split <;> exact (by decide : 1 ≤ 20)
  | apply symbol xs ih =>
      obtain ⟨o, ds, dual, ho, hds, hdual, rfl⟩ := derivative_apply_eq_ok_iff.mp hd
      obtain ⟨rfl, hslopes⟩ := derivative_of_duals hds
      obtain rfl := Operation.symbol_of_ofSymbol? ho
      obtain ⟨hroot, hbelow⟩ := not_or.mp (mt mem_symbols_apply.mpr hvar)
      have hvariance : o ≠ .variance := by
        rintro rfl
        exact hroot rfl
      have hrule := Operation.size_dual?_le hvariance hdual
      have hoperands := slopeSizes_le fun d hd =>
        ih d.formula (List.mem_map_of_mem hd) (fun h => hbelow ⟨_, List.mem_map_of_mem hd, h⟩)
          (hslopes d hd)
      rw [Operation.formula_of_dual? hdual, size_op] at hrule
      have hdepth : (apply o.symbol (ds.map Dual.formula)).depth =
          1 + depthAll (ds.map Dual.formula) := rfl
      have hsize : (apply o.symbol (ds.map Dual.formula)).size =
          1 + sizeAll (ds.map Dual.formula) := rfl
      rw [hdepth, hsize]
      generalize sizeAll (ds.map Dual.formula) = s at *
      generalize depthAll (ds.map Dual.formula) = m at *
      have hfewer : 20 * s * m ≤ 20 * (1 + s) * m :=
        Nat.mul_le_mul_right m (Nat.mul_le_mul_left 20 (Nat.le_add_left s 1))
      calc dual.slope.size ≤ 20 * (1 + s) + Dual.slopeSizes ds := hrule
        _ ≤ 20 * (1 + s) + 20 * s * m := Nat.add_le_add_left hoperands _
        _ ≤ 20 * (1 + s) + 20 * (1 + s) * m := Nat.add_le_add_left hfewer _
        _ = 20 * (1 + s) * (1 + m) := by rw [Nat.mul_add (20 * (1 + s)) 1 m, Nat.mul_one]

/-- **No blow-up.** A valid formula without variances has a derivative by every name, and it has at
most twenty times as many nodes as the formula has on each of its levels. -/
theorem exists_derivative_size_le {t : Formula} (hvalid : t.problems Registry.standard = [])
    (hvar : "var" ∉ t.symbols) (v : String) :
    ∃ d, t.derivative v = .ok d ∧ d.size ≤ 20 * t.size * t.depth := by
  have hmade : t.MadeOf (.named t.names) :=
    (madeOf_named_iff _ t).mpr ⟨faults_eq_nil_of_problems hvalid, fun _ hname => hname⟩
  obtain ⟨d, hd, -⟩ := hmade.derivative v
  exact ⟨d, hd, size_derivative_le hvar hd⟩

/-- A mean with a logarithm of a square. -/
def meanWithLog : Formula := mean [log (.var "x") (power (.var "y") two), .var "x"]

/-- Seven nodes on four levels. -/
theorem exists_derivative_size_le_meanWithLog :
    meanWithLog.problems Registry.standard = [] ∧ "var" ∉ meanWithLog.symbols ∧
      ∃ d, meanWithLog.derivative "y" = .ok d ∧ d.size ≤ 20 * 7 * 4 := by
  have hvalid : meanWithLog.problems Registry.standard = [] := by
    rw [problems, nodes_depthFirst]
    decide
  have hvar : "var" ∉ meanWithLog.symbols := by
    rw [symbols, nodes_depthFirst]
    decide
  exact ⟨hvalid, hvar, exists_derivative_size_le hvalid hvar "y"⟩

end Formula
end Formulary
