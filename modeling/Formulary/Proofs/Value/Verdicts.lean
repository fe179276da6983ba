import Formulary.Formula.Validity
import Formulary.Proofs.Value.Broadcast

/-!
# Verdicts

A formula is valid when it has no problem and, if arguments are given, a finite value
there. That is not always a verdict: some faults of the evaluation are passed
on. They are few (`Uncovered`): a registry has an operation that cannot be
evaluated, an argument holds an integer that is no double, or it has too many
dimensions for a mean.
-/

namespace Formulary

/-- The faults that are passed on, and what they need. -/
inductive Uncovered (r : Registry) (arguments : List Argument) (t : Formula) : EvalFault → Prop
  | operation {symbol : String} : symbol ∈ t.symbols → r.arity? symbol ≠ none →
      Operation.ofSymbol? symbol = none → Uncovered r arguments t (.unknownOperation symbol)
  | oversized {a : Argument} : a ∈ arguments → a.toGrid = .error .oversized →
      Uncovered r arguments t (.argument .oversized)
  | dimensions {a : Argument} {g : Grid Float} : a ∈ arguments → a.toGrid = .ok g →
      g.isDeep = true → Uncovered r arguments t .tooManyDimensions

theorem Operation.meansNoValue_of_countFault? {o : Operation} {count : Nat} {fault : EvalFault}
    (h : o.countFault? count = some fault) : fault.meansNoValue = true := by
  rw [countFault?] at h
  split at h
  · cases h
  · split at h <;> cases h <;> rfl

namespace Formula

variable {r : Registry} {arguments : List Argument} {t : Formula}

/-- The arguments as grids, those that are none as a number. -/
def gridsOf (arguments : List Argument) : List (Grid Float) :=
  arguments.map fun a => a.toGrid.toOption.getD (Grid.scalar 0)

theorem getElem?_gridsOf (i : Nat) (g : Grid Float) (h : argumentAt arguments i = .ok g) :
    (gridsOf arguments)[i]? = some g := by
  obtain ⟨a, ha, hgrid⟩ := argumentAt_eq_ok_iff.mp h
  rw [gridsOf, List.getElem?_map, ha, Option.map_some, hgrid]
  rfl

theorem exists_of_mem_gridsOf {g : Grid Float} (h : g ∈ gridsOf arguments)
    (hdeep : g.isDeep = true) : ∃ a ∈ arguments, a.toGrid = .ok g := by
  obtain ⟨a, ha, rfl⟩ := List.mem_map.mp h
  cases hgrid : a.toGrid with
  | ok x => exact ⟨a, ha, hgrid⟩
  | error fault =>
      rw [hgrid] at hdeep
      cases hdeep

/-- A fault that is passed on is one of the few. -/
theorem uncovered_of_evaluateAt (hproblems : t.problems r = []) {fault : EvalFault}
    (h : t.evaluateAt arguments = .error fault) (hfault : fault.meansNoValue = false) :
    Uncovered r arguments t fault := by
  obtain ⟨node, hnode, hraises⟩ := exists_raises h
  have hproblem : problem? r node = none := List.filterMap_eq_nil_iff.mp hproblems node hnode
  cases hraises with
  | unknownName hname => cases hfault
  | argument hi hargument =>
      rcases argumentAt_eq_error hargument with rfl | ⟨a, ha, why, hgrid, rfl⟩
      · cases hfault
      · cases why with
        | oversized => exact .oversized ha hgrid
        | _ => cases hfault
  | @unknownOperation symbol xs hsymbol =>
      refine .operation (List.mem_filterMap.mpr ⟨_, hnode, rfl⟩) (fun hnone => ?_) hsymbol
      rw [problem?, hnone] at hproblem
      cases hproblem
  | @operation symbol xs o gs fault ho hxs hoperation =>
      have houtcome := o.onGrids_outcome (A := Arithmetic.float) gs
      rw [hoperation] at houtcome
      cases houtcome with
      | mismatch _ _ => cases hfault
      | count hcount =>
          rw [Operation.meansNoValue_of_countFault? hcount] at hfault
          cases hfault
      | tooDeep _ _ hdeep =>
          obtain ⟨g, hg, hdeep⟩ := hdeep
          obtain ⟨x, -, hvalue⟩ := exists_operand_of_mem hxs g hg
          obtain ⟨y, hy, hdeep⟩ := (evaluate_isDeep_iff getElem?_gridsOf hvalue).mp hdeep
          obtain ⟨a, ha, hgrid⟩ := exists_of_mem_gridsOf (mem_of_mem_readFrom hy) hdeep
          exact .dimensions ha hgrid hdeep

theorem isFiniteAt_eq_true_iff :
    t.isFiniteAt arguments = .ok true ↔
      ∃ g, t.evaluateAt arguments = .ok g ∧ ∀ x ∈ g.entries, x.isFinite = true := by
  rw [isFiniteAt]
  cases t.evaluateAt arguments with
  | ok g => simp
  | error fault => cases hfault : fault.meansNoValue <;> simp [hfault]

theorem isFiniteAt_eq_error_iff {fault : EvalFault} :
    t.isFiniteAt arguments = .error fault ↔
      t.evaluateAt arguments = .error fault ∧ fault.meansNoValue = false := by
  rw [isFiniteAt]
  cases t.evaluateAt arguments with
  | ok g => simp
  | error other => cases hother : other.meansNoValue <;> grind

/-- **Verdicts.** There is a formula and it is valid just when it has no problem and, if arguments
are given, a value there all of whose entries are finite. There is no verdict just when the
evaluation of a formula without problems has a fault that does not only mean that there is no
value, and such faults need one of three things. -/
theorem isValidIfAny_iff (r : Registry) (given : Option (List Argument)) (t? : Option Formula) :
    (isValidIfAny r given t? = .ok true ↔
      ∃ t, t? = some t ∧ t.problems r = [] ∧ ∀ arguments, given = some arguments →
        ∃ g, t.evaluateAt arguments = .ok g ∧ ∀ x ∈ g.entries, x.isFinite = true) ∧
    (∀ fault, isValidIfAny r given t? = .error fault ↔
      ∃ t arguments, t? = some t ∧ given = some arguments ∧ t.problems r = [] ∧
        t.evaluateAt arguments = .error fault ∧ fault.meansNoValue = false) ∧
    ∀ fault, isValidIfAny r given t? = .error fault →
      ∃ t arguments, t? = some t ∧ given = some arguments ∧ Uncovered r arguments t fault := by
  have herror : ∀ fault, isValidIfAny r given t? = .error fault ↔
      ∃ t arguments, t? = some t ∧ given = some arguments ∧ t.problems r = [] ∧
        t.evaluateAt arguments = .error fault ∧ fault.meansNoValue = false := by
    intro fault
    cases t? with
    | none => simp [isValidIfAny]
    | some t =>
        by_cases hproblems : t.problems r = []
        · cases given with
          | none => simp [isValidIfAny, isValid, hproblems]
          | some arguments => simp [isValidIfAny, isValid, hproblems, isFiniteAt_eq_error_iff]
        · simp [isValidIfAny, isValid, hproblems]
  refine ⟨?_, herror, ?_⟩
  · cases t? with
    | none => simp [isValidIfAny]
    | some t =>
        by_cases hproblems : t.problems r = []
        · cases given with
          | none => simp [isValidIfAny, isValid, hproblems]
          | some arguments => simp [isValidIfAny, isValid, hproblems, isFiniteAt_eq_true_iff]
        · simp [isValidIfAny, isValid, hproblems]
  · intro fault h
    obtain ⟨t, arguments, ht, hgiven, hproblems, hresult, hfault⟩ := (herror fault).mp h
    exact ⟨t, arguments, ht, hgiven, uncovered_of_evaluateAt hproblems hresult hfault⟩

/-- No verdict on a name that reads an integer which is no double. -/
theorem isValidIfAny_oversized :
    (var "x").problems Registry.standard = [] ∧
      isValidIfAny Registry.standard (some [.oversized]) (some (var "x")) =
        .error (.argument .oversized) := by
  decide +kernel

end Formula
end Formulary
