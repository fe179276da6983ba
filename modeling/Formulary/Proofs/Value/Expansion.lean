import Formulary.Proofs.Derivative.Closure
import Formulary.Proofs.Value.Pointwise

/-!
# The variance and its expansion

The variance of some operands is the mean of their squares minus the square of their
mean, and the formula that says so is the one whose derivative the variance has. Both are
evaluated to the same grid (`evaluate_variance`), though the expansion evaluates every
operand four times: squares have the shape of what is squared, so all shapes are joined
in the same way, and sums are taken of the same terms in the same order. Where one has no
value the other has none, for the same reason. In any arithmetic both mean the same too
(`meaning_variance`).
-/

namespace Formulary

/-! ## Squares of grids -/

theorem Shape.join_self (s : Shape) : s.join s = some s := by
  induction s with
  | nil => rfl
  | cons a s ih =>
      have ha : joinLength a a = some a := if_pos rfl
      rw [join_cons, ha, ih]
      rfl

namespace Grid

variable {α : Type} (A : Arithmetic α)

/-- The squares of all entries. -/
def squared (g : Grid α) : Grid α := ⟨g.shape, fun i => A.square (g.stretched i)⟩

theorem zipWith?_same {f : α → α → α} {x y : Grid α} (h : x.shape = y.shape) :
    zipWith? f x y = some ⟨x.shape, fun i => f (x.stretched i) (y.stretched i)⟩ := by
  rw [zipWith?, ← h, Shape.join_self]
  rfl

theorem squared_stretched (g : Grid α) (i : Index) :
    (g.squared A).stretched i = A.square (g.stretched i) :=
  congrArg A.square (stretched_project (.refl g.shape) i)

theorem combine?_eq_none {f : Bool → List α → α} {gs : List (Grid α)}
    (h : Shape.joinAll (gs.map shape) = none) : combine? f gs = none := by
  rw [combine?, h]
  rfl

theorem exists_combine? {f : Bool → List α → α} {gs : List (Grid α)} {s : Shape}
    (h : Shape.joinAll (gs.map shape) = some s) : ∃ g, combine? f gs = some g ∧ g.shape = s := by
  rw [combine?, h]
  exact ⟨_, rfl, rfl⟩

theorem combine?_squared (f : Bool → List α → α) (gs : List (Grid α)) :
    combine? f (gs.map (squared A)) =
      combine? (fun alone terms => f alone (terms.map A.square)) gs := by
  have hshapes : (gs.map (squared A)).map shape = gs.map shape := List.map_map
  have hterms : ∀ i, (gs.map (squared A)).map (fun g => g.stretched i) =
      (gs.map fun g => g.stretched i).map A.square := by
    intro i
    rw [List.map_map, List.map_map]
    exact List.map_congr_left fun g _ => squared_stretched A g i
  simp only [combine?, hshapes, hterms]

end Grid

/-! ## Operations on grids -/

namespace Operation

open Grid (squared)

variable {α : Type} {A : Arithmetic α}

theorem onGrids_square (g : Grid α) : Operation.times.onGrids A [g, g] = .ok (g.squared A) := by
  show onGrids.joined (Grid.zipWith? A.mul g g) = _
  rw [Grid.zipWith?_same rfl]
  rfl

theorem isDeep_squared (gs : List (Grid α)) :
    (gs.map (squared A)).any Grid.isDeep = gs.any Grid.isDeep := List.any_map

/-- **Expansion.** The variance of grids is the mean of their squares minus the square of their
mean, and the means have the same faults as the variance. -/
theorem onGrids_variance {gs : List (Grid α)} (hne : gs ≠ []) :
    Operation.variance.onGrids A gs =
      Operation.mean.onGrids A (gs.map (squared A)) >>= fun x =>
        Operation.mean.onGrids A gs >>= fun y => Operation.minus.onGrids A [x, y.squared A] := by
  obtain ⟨g, more, rfl⟩ := List.exists_cons_of_ne_nil hne
  show onGrids.combined A.varianceOf (g :: more) =
    onGrids.combined A.meanOf ((g :: more).map (squared A)) >>= fun x =>
      onGrids.combined A.meanOf (g :: more) >>= fun y =>
        onGrids.joined (Grid.zipWith? A.sub x (y.squared A))
  generalize g :: more = gs
  simp only [onGrids.combined, isDeep_squared, Grid.combine?_squared]
  by_cases hdeep : gs.any Grid.isDeep = true
  · simp only [if_pos hdeep]
    rfl
  · simp only [if_neg hdeep]
    cases hs : Shape.joinAll (gs.map Grid.shape) with
    | none =>
        simp only [Grid.combine?_eq_none hs]
        rfl
    | some s =>
        obtain ⟨x, hx, rfl⟩ := Grid.exists_combine?
          (f := fun alone terms => A.meanOf alone (terms.map A.square)) hs
        obtain ⟨y, hy, hshape⟩ := Grid.exists_combine? (f := A.meanOf) hs
        have hwhole : Grid.combine? A.varianceOf gs = some ⟨x.shape, fun i =>
            A.varianceOf (x.shape.volume == 1) (gs.map fun g => g.stretched i)⟩ := by
          rw [Grid.combine?, hs]
          rfl
        rw [hx, hy, hwhole]
        -- all three have the joint shape, so it remains to compare their entries
        show _ = onGrids.joined (Grid.zipWith? A.sub x (y.squared A))
        rw [Grid.zipWith?_same (y := y.squared A) hshape.symm]
        refine congrArg Except.ok (congrArg (Grid.mk x.shape) (funext fun i => ?_))
        rw [Grid.squared_stretched, Grid.combine?_stretched hx, Grid.combine?_stretched hy, hshape]
        rfl

end Operation

/-! ## Evaluation -/

namespace Formula

open Grid (squared)

variable {α : Type} {A : Arithmetic α} {argument : Nat → Except EvalFault (Grid α)}

theorem evaluate_op (o : Operation) (xs : List Formula) :
    (op o xs).evaluate A argument = evaluateAll A argument xs >>= o.onGrids A :=
  evaluate_apply o.ofSymbol?_symbol

theorem evaluateAll_pair (x y : Formula) :
    evaluateAll A argument [x, y] =
      x.evaluate A argument >>= fun g => y.evaluate A argument >>= fun k => .ok [g, k] := by
  rw [evaluateAll_cons, evaluateAll_cons]
  cases x.evaluate A argument with
  | error fault => rfl
  | ok g => cases y.evaluate A argument <;> rfl

theorem evaluate_square (x : Formula) :
    (square x).evaluate A argument = squared A <$> x.evaluate A argument := by
  rw [square, times, evaluate_op, evaluateAll_pair]
  cases x.evaluate A argument with
  | error fault => rfl
  | ok g => exact Operation.onGrids_square g

theorem evaluateAll_square (xs : List Formula) :
    evaluateAll A argument (xs.map square) =
      List.map (squared A) <$> evaluateAll A argument xs := by
  induction xs with
  | nil => rfl
  | cons x xs ih =>
      rw [List.map_cons, evaluateAll_cons, evaluateAll_cons, evaluate_square, ih]
      cases x.evaluate A argument with
      | error fault => rfl
      | ok g => cases evaluateAll A argument xs <;> rfl

/-- **Both values.** In any arithmetic the variance of one operand or more and its expansion have
the same value or the same fault. -/
theorem evaluate_variance {xs : List Formula} (hne : xs ≠ []) :
    (op .variance xs).evaluate A argument = (varianceExpansion xs).evaluate A argument := by
  rw [varianceExpansion, minus, evaluate_op, evaluate_op, evaluateAll_pair, evaluate_square, mean,
    mean, evaluate_op, evaluate_op, evaluateAll_square]
  cases hxs : evaluateAll A argument xs with
  | error fault => rfl
  | ok gs =>
      have hgs : gs ≠ [] := by
        rintro rfl
        exact hne (List.forall₂_nil_right_iff.mp (evaluateAll_eq_ok_iff.mp hxs))
      show Operation.variance.onGrids A gs = _
      rw [Operation.onGrids_variance hgs]
      show _ = (Operation.mean.onGrids A (gs.map (squared A)) >>= fun x =>
        squared A <$> Operation.mean.onGrids A gs >>= fun y => .ok [x, y]) >>= _
      cases Operation.mean.onGrids A (gs.map (squared A)) with
      | error fault => rfl
      | ok x => cases Operation.mean.onGrids A gs <;> rfl

/-! ## Meaning -/

theorem meanings_square (point : String → α) (xs : List Formula) :
    meanings A point (xs.map square) = (meanings A point xs).map (List.map A.square) := by
  induction xs with
  | nil => rfl
  | cons x xs ih =>
      rw [List.map_cons, meanings, meanings, ih]
      cases hx : x.meaning A point with
      | error fault =>
          rw [square, times, op, meaning, Operation.ofSymbol?_symbol, meanings, hx]
          rfl
      | ok a =>
          rw [square, meaning_times hx hx]
          cases meanings A point xs <;> rfl

/-- The variance means what its expansion means. -/
theorem meaning_variance (point : String → α) (xs : List Formula) :
    (op .variance xs).meaning A point = (varianceExpansion xs).meaning A point := by
  cases hxs : meanings A point xs with
  | error fault =>
      have hsquares : (mean (xs.map square)).meaning A point = .error fault := by
        rw [mean, op, meaning, Operation.ofSymbol?_symbol, meanings_square, hxs]
        rfl
      rw [varianceExpansion, minus, op, op, meaning, meaning, Operation.ofSymbol?_symbol,
        Operation.ofSymbol?_symbol, meanings, hsquares, hxs]
  | ok values =>
      have hsquares : meanings A point (xs.map square) = .ok (values.map A.square) := by
        rw [meanings_square, hxs]
        rfl
      have hsquare : (square (mean xs)).meaning A point = .ok (A.square (A.average values)) :=
        meaning_times (meaning_mean hxs) (meaning_mean hxs)
      rw [meaning_op hxs rfl, varianceExpansion, meaning_minus (meaning_mean hsquares) hsquare]

/-! ## Differentiation -/

/-- The slopes of some operands, or the fault of the first that has none. -/
theorem derivative_variadic {o : Operation} {xs : List Formula} {rule : List Dual → Dual}
    (hlog : o ≠ .log) (hdual : ∀ ds, o.dual? ds = some (rule ds)) (v : String) :
    (op o xs).derivative v = (fun ds => (rule ds).slope) <$> (duals v xs).mapM id := by
  have hdifferentiates : o.differentiates xs.length = true := by
    cases o with
    | mean => rfl
    | variance => rfl
    | log => exact absurd rfl hlog
    | _ => cases hdual []
  have hcollect : collect o (duals v xs) = (duals v xs).mapM id := by
    cases o with
    | log => exact absurd rfl hlog
    | _ => rfl
  rw [op, derivative, Operation.ofSymbol?_symbol]
  simp only [hdifferentiates, if_true, hcollect]
  cases (duals v xs).mapM id with
  | error fault => rfl
  | ok ds =>
      simp only [hdual]
      rfl

theorem derivative_square (v : String) (x : Formula) :
    (square x).derivative v = (fun d => (Dual.square ⟨x, d⟩).slope) <$> x.derivative v := by
  rw [square, times, op, derivative, Operation.ofSymbol?_symbol, duals, duals, duals]
  cases x.derivative v <;> rfl

theorem derivative_minus (v : String) (x y : Formula) :
    (minus x y).derivative v =
      x.derivative v >>= fun d => y.derivative v >>= fun e => .ok (minus d e) := by
  rw [minus, op, derivative, Operation.ofSymbol?_symbol, duals, duals, duals]
  cases x.derivative v with
  | error fault => rfl
  | ok d => cases y.derivative v <;> rfl

/-- The slopes of squares. -/
theorem mapM_duals_square (v : String) (xs : List Formula) :
    (duals v (xs.map square)).mapM id = List.map Dual.square <$> (duals v xs).mapM id := by
  induction xs with
  | nil => rfl
  | cons x xs ih =>
      rw [List.map_cons, duals, duals, List.mapM_cons, List.mapM_cons, ih, derivative_square]
      cases x.derivative v with
      | error fault => rfl
      | ok d => cases (duals v xs).mapM id <;> rfl

/-- **Both derivatives.** The variance has the derivative of its expansion, or the same fault. -/
theorem derivative_variance (v : String) (xs : List Formula) :
    (op .variance xs).derivative v = (varianceExpansion xs).derivative v := by
  have hmean : ∀ ys, (mean ys).derivative v =
      (fun ds => (Dual.mean ds).slope) <$> (duals v ys).mapM id := fun ys =>
    derivative_variadic (by decide) (fun _ => rfl) v
  have hvariance : (op .variance xs).derivative v =
      (fun ds => (Dual.variance ds).slope) <$> (duals v xs).mapM id :=
    derivative_variadic (by decide) (fun _ => rfl) v
  rw [hvariance, varianceExpansion, derivative_minus, derivative_square, hmean, hmean,
    mapM_duals_square]
  cases hds : (duals v xs).mapM id with
  | error fault => rfl
  | ok ds =>
      obtain ⟨rfl, -⟩ := derivative_of_duals (eq_map_of_mapM_id hds)
      rfl

/-! ## Both together -/

/-- **The variance and its expansion.** At any arguments the variance of some operands and its
expansion have the same value, entry by entry, or faults of the same family. As soon as there is an
operand the fault is the same one too: only without operands one is told that the variance has none,
and the other that the mean has none. The derivative of the variance is that of the expansion. -/
theorem evaluateAt_variance (xs : List Formula) (arguments : List Argument) :
    ((op .variance xs).evaluateAt arguments).mapError EvalFault.family =
        ((varianceExpansion xs).evaluateAt arguments).mapError EvalFault.family ∧
      (xs ≠ [] →
        (op .variance xs).evaluateAt arguments = (varianceExpansion xs).evaluateAt arguments) ∧
      ∀ v, (op .variance xs).derivative v = (varianceExpansion xs).derivative v := by
  refine ⟨?_, fun hne => evaluate_variance hne, fun v => derivative_variance v xs⟩
  by_cases hne : xs = []
  · subst hne
    rfl
  · exact congrArg (Except.mapError EvalFault.family) (evaluate_variance hne)

end Formula
end Formulary
