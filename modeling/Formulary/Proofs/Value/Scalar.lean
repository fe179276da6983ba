import Formulary.Proofs.Value.Homomorphism
import Formulary.Proofs.Value.Pointwise
import Formulary.Formula.Derivative

/-!
# Numbers for arguments

The value of a formula at numbers is a number, made by the operations of the
arithmetic from the values of the operands. Each way to write a formula has its
rule here. The rules serve every arithmetic, and a map that respects the operations
of two arithmetics takes the values in the one to those in the other.
-/

namespace Formulary.Formula

open Grid (scalar)

variable {α β : Type}

/-- Numbers, given for the arguments by position. -/
def numberAt (point : List α) (i : Nat) : Except EvalFault (Grid α) :=
  match point[i]? with
  | none => .error (.missingArgument i)
  | some a => .ok (scalar a)

/-- Whether a formula has a number for its value at a point. -/
def HasValue (A : Arithmetic α) (point : List α) (t : Formula) (a : α) : Prop :=
  t.evaluate A (numberAt point) = .ok (scalar a)

variable {A : Arithmetic α} {point : List α}

theorem scalar_injective {a b : α} (h : scalar a = scalar b) : a = b :=
  congrArg (fun g => g.entry []) h

theorem HasValue.unique {t : Formula} {a b : α} (ha : HasValue A point t a)
    (hb : HasValue A point t b) : a = b :=
  scalar_injective (Except.ok.inj (Eq.trans (Eq.symm ha) hb))

/-! ## The value of an operation -/

theorem hasValue_const (x : Float) : HasValue A point (.const x) (A.ofFloat x) := rfl

theorem hasValue_name (A : Arithmetic α) (point : String → α) {name : String}
    (h : name ∈ argumentNames) :
    (var name).HasValue A (argumentNames.map point) (point name) := by
  simp only [argumentNames, List.mem_cons, List.not_mem_nil, or_false] at h
  obtain rfl | rfl | rfl := h <;> rfl

theorem hasValue_op {o : Operation} {xs : List Formula} {as : List α} {a : α}
    (h : List.Forall₂ (HasValue A point) xs as)
    (ho : o.onGrids A (as.map scalar) = .ok (scalar a)) : HasValue A point (op o xs) a := by
  refine evaluate_apply_eq_ok_iff.mpr ⟨o, as.map scalar, o.ofSymbol?_symbol, ?_, ho⟩
  exact List.forall₂_map_right_iff.mpr h

variable {x y : Formula} {a b : α}

theorem hasValue_pair {o : Operation} (hx : HasValue A point x a) (hy : HasValue A point y b)
    {c : α} (ho : o.onGrids A [scalar a, scalar b] = .ok (scalar c)) :
    HasValue A point (op o [x, y]) c :=
  hasValue_op (.cons hx (.cons hy .nil)) ho

theorem hasValue_plus (hx : HasValue A point x a) (hy : HasValue A point y b) :
    HasValue A point (plus x y) (A.add a b) := hasValue_pair hx hy rfl

theorem hasValue_minus (hx : HasValue A point x a) (hy : HasValue A point y b) :
    HasValue A point (minus x y) (A.sub a b) := hasValue_pair hx hy rfl

theorem hasValue_times (hx : HasValue A point x a) (hy : HasValue A point y b) :
    HasValue A point (times x y) (A.mul a b) := hasValue_pair hx hy rfl

theorem hasValue_divide (hx : HasValue A point x a) (hy : HasValue A point y b) :
    HasValue A point (divide x y) (A.div a b) := hasValue_pair hx hy rfl

theorem hasValue_power (hx : HasValue A point x a) (hy : HasValue A point y b) :
    HasValue A point (power x y) (A.powHeld a b) := hasValue_pair hx hy rfl

theorem hasValue_log (hx : HasValue A point x a) (hy : HasValue A point y b) :
    HasValue A point (log x y) (A.log a b) := hasValue_pair hx hy rfl

theorem hasValue_negate (hx : HasValue A point x a) : HasValue A point (negate x) (A.neg a) :=
  hasValue_op (.cons hx .nil) rfl

/-- An operation that combines any number of operands. -/
theorem hasValue_combined {o : Operation} {f : Bool → List α → α}
    (ho : ∀ g gs, o.onGrids A (g :: gs) = Operation.onGrids.combined f (g :: gs))
    {xs : List Formula} {as : List α} (hne : as ≠ []) (h : List.Forall₂ (HasValue A point) xs as) :
    HasValue A point (op o xs) (f true as) := by
  refine hasValue_op h ?_
  obtain ⟨a, more, rfl⟩ := List.exists_cons_of_ne_nil hne
  rw [List.map_cons, ho, ← List.map_cons, Operation.onGrids.combined, Grid.not_isDeep_scalar,
    Grid.combine?_scalar]
  rfl

theorem hasValue_mean {xs : List Formula} {as : List α} (hne : as ≠ [])
    (h : List.Forall₂ (HasValue A point) xs as) :
    HasValue A point (mean xs) (A.meanOf true as) :=
  hasValue_combined (fun _ _ => rfl) hne h

theorem hasValue_variance {xs : List Formula} {as : List α} (hne : as ≠ [])
    (h : List.Forall₂ (HasValue A point) xs as) :
    HasValue A point (op .variance xs) (A.varianceOf true as) :=
  hasValue_combined (fun _ _ => rfl) hne h

/-! ## From one arithmetic to another -/

theorem numberAt_map (f : α → β) (point : List α) (i : Nat) :
    numberAt (point.map f) i = (numberAt point i).map (Grid.map f) := by
  rw [numberAt, numberAt, List.getElem?_map]
  cases point[i]? <;> rfl

theorem HasValue.map {B : Arithmetic β} (h : A.Hom B) {t : Formula}
    (ht : HasValue A point t a) : HasValue B (point.map h.map) t (h.map a) := by
  have hpoint : numberAt (point.map h.map) = fun i => (numberAt point i).map (Grid.map h.map) :=
    funext (numberAt_map h.map point)
  rw [HasValue, hpoint, evaluate_map h, ht]
  rfl

/-- Numbers for arguments, as they are given in a call. -/
theorem argumentAt_numbers (point : List Float) :
    argumentAt (point.map .number) = numberAt point := by
  funext i
  rw [argumentAt, numberAt, List.getElem?_map]
  cases point[i]? <;> rfl

end Formulary.Formula
