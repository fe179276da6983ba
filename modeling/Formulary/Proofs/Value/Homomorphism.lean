import Formulary.Proofs.Value.Broadcast

/-!
# From one arithmetic to another

A map that respects the operations of two arithmetics respects sums, whatever their
order, and operations on grids. So it takes the value of a formula in the one to the
value of the formula in the other, faults included (`evaluate_map`).
-/

namespace Formulary

variable {α β : Type}

/-- A map between the numbers of two arithmetics that respects what is done with them. -/
structure Arithmetic.Hom (A : Arithmetic α) (B : Arithmetic β) where
  map : α → β
  ofFloat (x : Float) : map (A.ofFloat x) = B.ofFloat x
  ofNat (n : Nat) : map (A.ofNat n) = B.ofNat n
  add (a b : α) : map (A.add a b) = B.add (map a) (map b)
  sub (a b : α) : map (A.sub a b) = B.sub (map a) (map b)
  neg (a : α) : map (A.neg a) = B.neg (map a)
  mul (a b : α) : map (A.mul a b) = B.mul (map a) (map b)
  div (a b : α) : map (A.div a b) = B.div (map a) (map b)
  pow (a b : α) : map (A.pow a b) = B.pow (map a) (map b)
  powHeld (a b : α) : map (A.powHeld a b) = B.powHeld (map a) (map b)
  lnAbs (a : α) : map (A.lnAbs a) = B.lnAbs (map a)

/-! ## Sums -/

namespace Arithmetic

/-- Too few terms for another round of the lanes. -/
theorem length_le_of_few {xs : List α} (h : ∀ x0 x1 x2 x3 x4 x5 x6 x7 more,
    xs = x0 :: x1 :: x2 :: x3 :: x4 :: x5 :: x6 :: x7 :: more → False) : xs.length ≤ 7 := by
  rcases xs with _ | ⟨x0, _ | ⟨x1, _ | ⟨x2, _ | ⟨x3, _ | ⟨x4, _ | ⟨x5, _ | ⟨x6, _ | ⟨x7, more⟩⟩⟩⟩⟩⟩⟩⟩
  case cons.cons.cons.cons.cons.cons.cons.cons =>
    exact absurd rfl (h x0 x1 x2 x3 x4 x5 x6 x7 more)
  all_goals simp only [List.length_cons, List.length_nil]; omega

theorem sumLanes_of_few (A : Arithmetic α) (l : Lanes α) {xs : List α} (h : xs.length ≤ 7) :
    A.sumLanes l xs = A.sumFrom (A.joinLanes l) xs := by
  rw [sumLanes.eq_def]
  split
  · simp only [List.length_cons] at h
    omega
  · rfl

theorem sumBlock_of_few (A : Arithmetic α) {xs : List α} (h : xs.length ≤ 7) :
    A.sumBlock xs = A.sumFrom A.negZero xs := by
  rw [sumBlock.eq_def]
  split
  · simp only [List.length_cons] at h
    omega
  · rfl

namespace Hom

variable {A : Arithmetic α} {B : Arithmetic β} (h : A.Hom B)

theorem sumFrom (start : α) (terms : List α) :
    h.map (A.sumFrom start terms) = B.sumFrom (h.map start) (terms.map h.map) := by
  induction terms generalizing start with
  | nil => rfl
  | cons x terms ih =>
      show h.map (A.sumFrom (A.add start x) terms) = _
      rw [ih, h.add]
      rfl

/-- Lanes, each of them mapped. -/
def lanes (l : Lanes α) : Lanes β :=
  ⟨h.map l.l0, h.map l.l1, h.map l.l2, h.map l.l3, h.map l.l4, h.map l.l5, h.map l.l6, h.map l.l7⟩

theorem sumLanes (l : Lanes α) (terms : List α) :
    h.map (A.sumLanes l terms) = B.sumLanes (h.lanes l) (terms.map h.map) := by
  fun_induction A.sumLanes l terms with
  | case1 l x0 x1 x2 x3 x4 x5 x6 x7 xs ih =>
      rw [ih]
      simp only [List.map_cons, Arithmetic.sumLanes, lanes, h.add]
  | case2 l xs hfew =>
      have hlength := length_le_of_few hfew
      rw [B.sumLanes_of_few _ (by rwa [List.length_map]), h.sumFrom]
      simp only [joinLanes, lanes, h.add]

theorem sumBlock (terms : List α) : h.map (A.sumBlock terms) = B.sumBlock (terms.map h.map) := by
  fun_cases A.sumBlock terms with
  | case1 x0 x1 x2 x3 x4 x5 x6 x7 xs => exact h.sumLanes _ xs
  | case2 xs hfew =>
      have hlength := length_le_of_few hfew
      rw [B.sumBlock_of_few (by rwa [List.length_map]), h.sumFrom]
      exact congrArg (B.sumFrom · _) (h.ofFloat _)

theorem sumHalves (terms : List α) :
    h.map (A.sumHalves terms) = B.sumHalves (terms.map h.map) := by
  fun_induction A.sumHalves terms with
  | case1 terms hmany n ihtake ihdrop =>
      rw [h.add, ihtake, ihdrop, Arithmetic.sumHalves.eq_def B (terms.map h.map),
        dif_pos (by rwa [List.length_map]), List.map_take, List.map_drop, List.length_map]
  | case2 terms hfew =>
      rw [h.sumBlock, Arithmetic.sumHalves, dif_neg (by rwa [List.length_map])]

theorem meanOf (alone : Bool) (terms : List α) :
    h.map (A.meanOf alone terms) = B.meanOf alone (terms.map h.map) := by
  rw [Arithmetic.meanOf, Arithmetic.meanOf, h.div, List.length_map]
  congr 1
  · cases alone with
    | true =>
        show h.map (A.add A.zero (A.sumHalves terms)) = _
        rw [h.add, h.sumHalves]
        exact congrArg (B.add · _) (h.ofFloat 0)
    | false =>
        show h.map (A.sumFrom A.zero terms) = _
        rw [h.sumFrom]
        exact congrArg (B.sumFrom · _) (h.ofFloat 0)
  · exact h.ofNat _

theorem varianceOf (alone : Bool) (terms : List α) :
    h.map (A.varianceOf alone terms) = B.varianceOf alone (terms.map h.map) := by
  have hsquare : ∀ a, h.map (A.square a) = B.square (h.map a) := fun a => h.mul a a
  have hsquares : (terms.map A.square).map h.map = (terms.map h.map).map B.square := by
    rw [List.map_map, List.map_map]
    exact List.map_congr_left fun a _ => hsquare a
  rw [Arithmetic.varianceOf, Arithmetic.varianceOf, h.sub, hsquare, h.meanOf, h.meanOf, hsquares]

end Hom
end Arithmetic

/-! ## Grids -/

namespace Grid

variable (f : α → β)

theorem zipWith?_map {u : α → α → α} {v : β → β → β} (h : ∀ a b, f (u a b) = v (f a) (f b))
    (x y : Grid α) : zipWith? v (x.map f) (y.map f) = (zipWith? u x y).map (map f) := by
  rw [zipWith?, zipWith?, Option.map_map]
  refine congrArg (Option.map · _) (funext fun s => ?_)
  show Grid.mk s (fun i => v (f (x.stretched i)) (f (y.stretched i))) = _
  simp only [← h]
  rfl

theorem combine?_map {u : Bool → List α → α} {v : Bool → List β → β}
    (h : ∀ alone as, f (u alone as) = v alone (as.map f)) (gs : List (Grid α)) :
    combine? v (gs.map (map f)) = (combine? u gs).map (map f) := by
  have hshapes : (gs.map (map f)).map shape = gs.map shape := by
    rw [List.map_map]
    rfl
  have hentries : ∀ i, (gs.map (map f)).map (fun g => g.stretched i) =
      (gs.map fun g => g.stretched i).map f := by
    intro i
    rw [List.map_map, List.map_map]
    rfl
  rw [combine?, combine?, hshapes, Option.map_map]
  refine congrArg (Option.map · _) (funext fun s => ?_)
  show Grid.mk s (fun i => v _ ((gs.map (map f)).map fun g => g.stretched i)) = _
  simp only [hentries, ← h]
  rfl

end Grid

variable {A : Arithmetic α} {B : Arithmetic β} (h : A.Hom B)

namespace Operation

theorem joined_map {r : Option (Grid α)} {s : Option (Grid β)} {f : α → β}
    (hr : s = r.map (Grid.map f)) : onGrids.joined s = (onGrids.joined r).map (Grid.map f) := by
  rw [hr]
  cases r <;> rfl

theorem combined_map {u : Bool → List α → α} {v : Bool → List β → β} {f : α → β}
    (hf : ∀ alone as, f (u alone as) = v alone (as.map f)) (gs : List (Grid α)) :
    onGrids.combined v (gs.map (Grid.map f)) = (onGrids.combined u gs).map (Grid.map f) := by
  have hdeep : (gs.map (Grid.map f)).any Grid.isDeep = gs.any Grid.isDeep := by
    rw [List.any_map]
    rfl
  rw [onGrids.combined, onGrids.combined, hdeep]
  cases gs.any Grid.isDeep with
  | true => rfl
  | false => exact joined_map (Grid.combine?_map f hf gs)

theorem onGrids_map (o : Operation) (gs : List (Grid α)) :
    o.onGrids B (gs.map (Grid.map h.map)) = (o.onGrids A gs).map (Grid.map h.map) := by
  have hpower : ∀ held a b, h.map (A.power held a b) = B.power held (h.map a) (h.map b) := by
    intro held a b
    cases held with
    | true => exact h.powHeld a b
    | false => exact h.pow a b
  have hlog : ∀ a b, h.map (A.log a b) = B.log (h.map a) (h.map b) := by
    intro a b
    rw [Arithmetic.log, h.div, h.lnAbs, h.lnAbs, Arithmetic.log]
  cases o with
  | negate =>
      rcases gs with _ | ⟨x, _ | ⟨y, gs⟩⟩
      · rfl
      · show Except.ok ((x.map h.map).map B.neg) = Except.ok ((x.map A.neg).map h.map)
        simp only [Grid.map, h.neg]
      · simp [onGrids, Except.map]
  | mean =>
      rcases gs with _ | ⟨x, gs⟩
      · rfl
      · exact combined_map h.meanOf (x :: gs)
  | variance =>
      rcases gs with _ | ⟨x, gs⟩
      · rfl
      · exact combined_map h.varianceOf (x :: gs)
  | _ =>
      rcases gs with _ | ⟨x, _ | ⟨y, _ | ⟨z, gs⟩⟩⟩
      · rfl
      · rfl
      · refine joined_map (Grid.zipWith?_map h.map ?_ x y)
        first
          | exact h.add
          | exact h.sub
          | exact h.mul
          | exact h.div
          | exact hlog
          | exact hpower _
      · simp [onGrids, Except.map]

end Operation

namespace Formula

mutual
/-- **Evaluation.** A formula is evaluated alike in both arithmetics. -/
theorem evaluate_map (argument : Nat → Except EvalFault (Grid α)) : (t : Formula) →
    t.evaluate B (fun i => (argument i).map (Grid.map h.map)) =
      (t.evaluate A argument).map (Grid.map h.map)
  | .const value => by
      show Except.ok (Grid.scalar (B.ofFloat value)) = _
      rw [← h.ofFloat]
      rfl
  | .var name => by
      rw [evaluate, evaluate]
      cases argumentIndex? name <;> rfl
  | .apply symbol xs => by
      rw [evaluate, evaluate, evaluateAll_map argument xs]
      cases Operation.ofSymbol? symbol with
      | none => rfl
      | some o =>
          cases evaluateAll A argument xs with
          | error fault => rfl
          | ok gs => exact o.onGrids_map h gs
theorem evaluateAll_map (argument : Nat → Except EvalFault (Grid α)) : (xs : List Formula) →
    evaluateAll B (fun i => (argument i).map (Grid.map h.map)) xs =
      (evaluateAll A argument xs).map (List.map (Grid.map h.map))
  | [] => rfl
  | x :: xs => by
      rw [evaluateAll, evaluateAll, evaluate_map argument x, evaluateAll_map argument xs]
      cases x.evaluate A argument with
      | error fault => rfl
      | ok g => cases evaluateAll A argument xs <;> rfl
end

end Formula
end Formulary
