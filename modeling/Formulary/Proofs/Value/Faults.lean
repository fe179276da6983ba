import Formulary.Proofs.Formula.Preorder
import Formulary.Proofs.Value.Shapes

/-!
# Faults

What keeps a formula from having a value at single numbers. A walk looks up the
symbol of a node, goes through its operands from left to right and then counts
them, and notes every fault on the way. Evaluation takes the same way and stops
at the first fault; the problems of the formula are the same faults in
another order, with the constants that are not finite among them.

What an operation makes of grids of any shapes is said once, in
`Operation.onGrids_outcome`; single numbers are the case without dimensions.
-/

namespace Formulary

/-- What is wrong with a number of operands. -/
def Operation.countFault? (o : Operation) (count : Nat) : Option EvalFault :=
  if o.arity.admits count then none
  else match o.arity with
    | .variadic => some (.noOperands o.symbol)
    | .exactly _ => some (.operandCount o.symbol count)

/-- The fault that a problem amounts to. A constant that is not finite is none. -/
def Problem.fault? : Problem → Option EvalFault
  | .nonFinite _ => none
  | .unknownName name => some (.unknownName name)
  | .unknownOperation symbol => some (.unknownOperation symbol)
  | .operandCount symbol count =>
    if Registry.standard.arity? symbol = some .variadic then some (.noOperands symbol)
    else some (.operandCount symbol count)

namespace Formula

mutual
/-- The faults of a formula in the order in which a walk meets them. -/
def faults : Formula → List EvalFault
  | .const _ => []
  | .var name => if argumentNames.contains name then [] else [.unknownName name]
  | .apply symbol xs =>
    match Operation.ofSymbol? symbol with
    | none => .unknownOperation symbol :: faultsAll xs
    | some o => faultsAll xs ++ (o.countFault? xs.length).toList
def faultsAll : List Formula → List EvalFault
  | [] => []
  | x :: xs => faults x ++ faultsAll xs
end

end Formula

/-! ## The same faults in another order -/

/-- The problems of an operation node are its faults apart from those of the operands. -/
theorem Operation.countFault?_eq {symbol : String} {o : Operation}
    (ho : Operation.ofSymbol? symbol = some o) (xs : List Formula) :
    (Formula.problem? Registry.standard (.apply symbol xs)).bind Problem.fault? =
      o.countFault? xs.length := by
  have harity : Registry.standard.arity? symbol = some o.arity := by
    rw [Registry.standard_arity?, ho, Option.map_some]
  simp only [Formula.problem?, harity, Operation.countFault?]
  cases o.arity.admits xs.length with
  | true => rfl
  | false =>
      simp only [Bool.false_eq_true, if_false, Option.bind_some, Problem.fault?, harity]
      rw [Operation.symbol_of_ofSymbol? ho]
      cases o.arity <;> simp

theorem Problem.fault?_eq_none_iff (p : Problem) : p.fault? = none ↔ ∃ v, p = .nonFinite v := by
  cases p with
  | nonFinite v => simp [fault?]
  | unknownName name => simp [fault?]
  | unknownOperation symbol => simp [fault?]
  | operandCount symbol count =>
      rw [fault?]
      split <;> simp

namespace Formula

theorem problemFaults_eq (t : Formula) :
    (t.problems Registry.standard).filterMap Problem.fault? =
      ((problem? Registry.standard t).bind Problem.fault?).toList ++
        t.operands.flatMap fun x => (x.problems Registry.standard).filterMap Problem.fault? := by
  have hroot : ∀ p : Option Problem,
      p.toList.filterMap Problem.fault? = (p.bind Problem.fault?).toList := by
    intro p
    cases p with
    | none => rfl
    | some p => cases h : p.fault? <;> simp [h]
  rw [problems_eq, List.filterMap_append, List.filterMap_flatMap, hroot]

mutual
/-- The problems of a formula, but for its constants, are its faults in another order. -/
theorem faults_perm : (t : Formula) →
    t.faults.Perm ((t.problems Registry.standard).filterMap Problem.fault?)
  | .const value => by
      have hroot : (problem? Registry.standard (.const value)).bind Problem.fault? = none := by
        rw [problem?]
        split <;> rfl
      rw [problemFaults_eq, hroot]
      exact .refl _
  | .var name => by
      rw [problemFaults_eq, problem?, faults]
      split <;> exact .refl _
  | .apply symbol xs => by
      have hoperands := faultsAll_perm xs
      rw [problemFaults_eq, faults]
      cases ho : Operation.ofSymbol? symbol with
      | none =>
          have hroot : problem? Registry.standard (.apply symbol xs) =
              some (.unknownOperation symbol) := by
            rw [problem?, Registry.standard_arity?, ho]
            rfl
          rw [hroot]
          exact hoperands.cons _
      | some o =>
          -- the walk counts the operands after them, the problems have the node first
          rw [Operation.countFault?_eq ho]
          exact (hoperands.append_right _).trans List.perm_append_comm
theorem faultsAll_perm : (xs : List Formula) →
    (faultsAll xs).Perm
      (xs.flatMap fun x => (x.problems Registry.standard).filterMap Problem.fault?)
  | [] => .nil
  | x :: xs => by
      rw [faultsAll, List.flatMap_cons]
      exact (faults_perm x).append (faultsAll_perm xs)
end

theorem faults_ne_nil_iff (t : Formula) :
    t.faults ≠ [] ↔ ∃ p ∈ t.problems Registry.standard, ∀ v, p ≠ .nonFinite v := by
  have hnil : t.faults = [] ↔
      ∀ p ∈ t.problems Registry.standard, ∃ v, p = .nonFinite v := by
    rw [← List.length_eq_zero_iff, (faults_perm t).length_eq, List.length_eq_zero_iff,
      List.filterMap_eq_nil_iff]
    simp only [Problem.fault?_eq_none_iff]
  rw [ne_eq, hnil]
  simp

theorem faults_eq_nil_of_problems {t : Formula} (h : t.problems Registry.standard = []) :
    t.faults = [] := by
  have hperm := faults_perm t
  rw [h] at hperm
  exact hperm.eq_nil

end Formula

/-! ## Evaluation stops at the first fault -/

/-- A grid of one number, without dimensions. -/
def Grid.IsSingle {α : Type} (g : Grid α) : Prop := g.shape = []

/-- What comes of an evaluation that meets the given faults: the first of them, or a result. -/
inductive Settles {β : Type} (IsResult : β → Prop) : List EvalFault → Except EvalFault β → Prop
  | result {b : β} : IsResult b → Settles IsResult [] (.ok b)
  | fault {f : EvalFault} {later : List EvalFault} : Settles IsResult (f :: later) (.error f)

/-- What is done with a result can only add faults behind those before it. -/
theorem Settles.bind {β γ : Type} {P : β → Prop} {Q : γ → Prop} {here later : List EvalFault}
    {r : Except EvalFault β} {next : β → Except EvalFault γ} (h : Settles P here r)
    (hnext : ∀ b, P b → Settles Q later (next b)) :
    Settles Q (here ++ later) (r >>= next) := by
  cases h with
  | result hb => exact hnext _ hb
  | fault => exact .fault

theorem Settles.map {β γ : Type} {P : β → Prop} {Q : γ → Prop} {fs : List EvalFault}
    {r : Except EvalFault β} {f : β → γ} (h : Settles P fs r) (hf : ∀ b, P b → Q (f b)) :
    Settles Q fs (f <$> r) := by
  cases h with
  | result hb => exact .result (hf _ hb)
  | fault => exact .fault

theorem Settles.error_iff {β : Type} {P : β → Prop} {fs : List EvalFault}
    {r : Except EvalFault β} (h : Settles P fs r) (f : EvalFault) :
    r = .error f ↔ fs.head? = some f := by
  cases h with
  | result hb => simp
  | fault => simp

theorem Settles.exists_result {β : Type} {P : β → Prop} {r : Except EvalFault β}
    (h : Settles P [] r) : ∃ b, r = .ok b ∧ P b := by
  cases h with
  | result hb => exact ⟨_, rfl, hb⟩

variable {α : Type} {A : Arithmetic α}

/-! ## Operations on grids -/

namespace Operation

variable {o : Operation} {gs : List (Grid α)}

/-- What comes of an operation on grids: a grid of their joint shape, or a fault. -/
inductive Outcome (o : Operation) (gs : List (Grid α)) : Except EvalFault (Grid α) → Prop
  | value {g : Grid α} : o.countFault? gs.length = none →
      Shape.IsJoint (gs.map Grid.shape) g.shape →
      (o.arity = .variadic → ∀ x ∈ gs, x.isDeep = false) → Outcome o gs (.ok g)
  | mismatch : o.countFault? gs.length = none → ¬ Shape.Joinable (gs.map Grid.shape) →
      Outcome o gs (.error .shapeMismatch)
  | tooDeep : o.countFault? gs.length = none → o.arity = .variadic → (∃ x ∈ gs, x.isDeep = true) →
      Outcome o gs (.error .tooManyDimensions)
  | count {fault : EvalFault} : o.countFault? gs.length = some fault → Outcome o gs (.error fault)

/-- A grid for every shape to which some shapes join, and none if they do not. -/
theorem outcome_joined {joint : Option Shape} {grid : Shape → Grid α}
    (hcount : o.countFault? gs.length = none)
    (hshallow : o.arity = .variadic → ∀ x ∈ gs, x.isDeep = false)
    (hjoint : joint = Shape.joinAll (gs.map Grid.shape)) (hgrid : ∀ s, (grid s).shape = s) :
    Outcome o gs (onGrids.joined (joint.map grid)) := by
  cases joint with
  | none =>
      refine .mismatch hcount fun h => ?_
      obtain ⟨s, hs⟩ := Shape.exists_joinAll h
      rw [hs] at hjoint
      cases hjoint
  | some s =>
      refine .value hcount ?_ hshallow
      rw [hgrid]
      exact Shape.joinAll_isJoint hjoint.symm

theorem outcome_combined (f : Bool → List α → α) (hcount : o.countFault? gs.length = none)
    (ho : o.arity = .variadic) : Outcome o gs (onGrids.combined f gs) := by
  rw [onGrids.combined]
  split
  · next hdeep => exact .tooDeep hcount ho (List.any_eq_true.mp hdeep)
  · next hshallow =>
      refine outcome_joined hcount (fun _ x hx => ?_) rfl fun s => rfl
      exact Bool.eq_false_iff.mpr fun hx' => hshallow (List.any_eq_true.mpr ⟨x, hx, hx'⟩)

/-- **Operations on grids.** The result has the joint shape of the operands, if there is one and
the operation takes so many operands of so many dimensions. -/
theorem onGrids_outcome (o : Operation) (gs : List (Grid α)) : Outcome o gs (o.onGrids A gs) := by
  cases o with
  | negate =>
      rcases gs with _ | ⟨x, _ | ⟨y, gs⟩⟩
      · exact .count rfl
      · refine .value rfl (Shape.isJoint_singleton x.shape) fun h => ?_
        cases h
      · exact .count rfl
  | mean =>
      rcases gs with _ | ⟨x, gs⟩
      · exact .count rfl
      · exact outcome_combined _ rfl rfl
  | variance =>
      rcases gs with _ | ⟨x, gs⟩
      · exact .count rfl
      · exact outcome_combined _ rfl rfl
  | _ =>
      rcases gs with _ | ⟨x, _ | ⟨y, _ | ⟨z, gs⟩⟩⟩
      · exact .count rfl
      · exact .count rfl
      · refine outcome_joined rfl (fun h => ?_) (Shape.join_eq_joinAll x.shape y.shape) fun s => rfl
        cases h
      · exact .count rfl

open Grid (IsSingle)

/-- An operation on single numbers is a single number, unless it does not take so many. -/
theorem settles_onGrids (o : Operation) (h : ∀ g ∈ gs, g.IsSingle) :
    Settles IsSingle (o.countFault? gs.length).toList (o.onGrids A gs) := by
  have hstretches : ∀ r ∈ gs.map Grid.shape, r.StretchesTo [] := by
    refine List.forall_mem_map.mpr fun x hx => ?_
    have hshape : x.shape = [] := h x hx
    rw [hshape]
    trivial
  have houtcome := o.onGrids_outcome (A := A) gs
  generalize o.onGrids A gs = result at houtcome ⊢
  cases houtcome with
  | value hcount hjoint _ =>
      rw [hcount]
      have hlength := ((hjoint []).mpr hstretches).length_le
      exact .result (List.length_eq_zero_iff.mp (Nat.le_zero.mp hlength))
  | mismatch _ hmismatch => exact absurd ⟨[], hstretches⟩ hmismatch
  | tooDeep _ _ hdeep =>
      obtain ⟨x, hx, hdeep⟩ := hdeep
      have hshape : x.shape = [] := h x hx
      rw [Grid.isDeep, hshape] at hdeep
      cases hdeep
  | count hcount =>
      rw [hcount]
      exact .fault

end Operation

/-! ## Formulas at single numbers -/

namespace Formula

open Grid (IsSingle)

/-- As many single numbers as there are operands. -/
def AreSingle (count : Nat) (gs : List (Grid α)) : Prop := gs.length = count ∧ ∀ g ∈ gs, g.IsSingle

variable {argument : Nat → Except EvalFault (Grid α)}

theorem evaluate_apply {symbol : String} {o : Operation} {xs : List Formula}
    (ho : Operation.ofSymbol? symbol = some o) :
    (apply symbol xs).evaluate A argument = evaluateAll A argument xs >>= o.onGrids A := by
  rw [evaluate, ho]
  cases evaluateAll A argument xs <;> rfl

theorem evaluateAll_cons (x : Formula) (xs : List Formula) :
    evaluateAll A argument (x :: xs) =
      evaluate A argument x >>= fun g => (g :: ·) <$> evaluateAll A argument xs := by
  rw [evaluateAll]
  cases evaluate A argument x with
  | error fault => rfl
  | ok g => cases evaluateAll A argument xs <;> rfl

theorem contains_of_argumentIndex?_eq_none {name : String} (h : argumentIndex? name = none) :
    argumentNames.contains name = false := by
  rw [argumentIndex?, List.findIdx?_eq_none_iff] at h
  rw [List.contains_eq_any_beq, List.any_eq_false]
  intro n hn
  rw [Bool.beq_comm, h n hn]
  decide

theorem lt_of_argumentIndex?_eq_some {name : String} {i : Nat} (h : argumentIndex? name = some i) :
    i < argumentNames.length ∧ argumentNames.contains name = true := by
  obtain ⟨hlt, hbeq, -⟩ := List.findIdx?_eq_some_iff_getElem.mp h
  refine ⟨hlt, ?_⟩
  rw [List.contains_iff_mem, ← eq_of_beq hbeq]
  exact List.getElem_mem hlt

mutual
/-- **Evaluation.** With single numbers for arguments a formula has a single number for its value
unless it has faults, and then evaluation stops at the first of them. -/
theorem settles_evaluate
    (hargument : ∀ i < argumentNames.length, ∃ g, argument i = .ok g ∧ g.IsSingle) :
    (t : Formula) → Settles IsSingle t.faults (t.evaluate A argument)
  | .const value => .result rfl
  | .var name => by
      rw [faults, evaluate]
      cases hi : argumentIndex? name with
      | none =>
          rw [contains_of_argumentIndex?_eq_none hi]
          exact .fault
      | some i =>
          obtain ⟨hlt, hname⟩ := lt_of_argumentIndex?_eq_some hi
          obtain ⟨g, hg, hsingle⟩ := hargument i hlt
          rw [if_pos hname]
          show Settles IsSingle [] (argument i)
          rw [hg]
          exact .result hsingle
  | .apply symbol xs => by
      have hxs := settles_evaluateAll hargument xs
      rw [faults]
      cases ho : Operation.ofSymbol? symbol with
      | none =>
          rw [evaluate, ho]
          exact .fault
      | some o =>
          rw [evaluate_apply ho]
          refine hxs.bind ?_
          rintro gs ⟨hlength, hsingle⟩
          exact hlength ▸ o.settles_onGrids hsingle
theorem settles_evaluateAll
    (hargument : ∀ i < argumentNames.length, ∃ g, argument i = .ok g ∧ g.IsSingle) :
    (xs : List Formula) →
    Settles (AreSingle xs.length) (faultsAll xs) (evaluateAll A argument xs)
  | [] => .result ⟨rfl, List.forall_mem_nil _⟩
  | x :: xs => by
      have hx := settles_evaluate hargument x
      have hxs := settles_evaluateAll hargument xs
      rw [faultsAll, evaluateAll_cons]
      refine hx.bind ?_
      intro g hg
      refine hxs.map ?_
      rintro gs ⟨hlength, hsingle⟩
      exact ⟨congrArg (· + 1) hlength, List.forall_mem_cons.mpr ⟨hg, hsingle⟩⟩
end

/-- Doubles are single numbers, wherever in a list of arguments they stand. -/
theorem argumentAt_number {values : List Float} {i : Nat} (h : i < values.length) :
    ∃ g, argumentAt (values.map .number) i = .ok g ∧ g.IsSingle := by
  have hat : (values.map Argument.number)[i]? = some (.number values[i]) := by simp [h]
  rw [argumentAt, hat]
  exact ⟨_, rfl, rfl⟩

theorem settles_evaluateAt {values : List Float} (h : argumentNames.length ≤ values.length)
    (t : Formula) : Settles IsSingle t.faults (t.evaluateAt (values.map .number)) :=
  settles_evaluate (fun _ hi => argumentAt_number (Nat.lt_of_lt_of_le hi h)) t

/-- A formula without faults has a number for its value at any three doubles. -/
theorem exists_single_evaluateAt {t : Formula} (h : t.faults = []) (x y z : Float) :
    ∃ g, t.evaluateAt [.number x, .number y, .number z] = .ok g ∧ g.IsSingle := by
  have hsettles := @settles_evaluateAt [x, y, z] (Nat.le_refl _) t
  rw [h] at hsettles
  exact hsettles.exists_result

theorem exists_evaluateAt {t : Formula} (h : t.faults = []) (x y z : Float) :
    ∃ g, t.evaluateAt [.number x, .number y, .number z] = .ok g := by
  obtain ⟨g, hg, -⟩ := exists_single_evaluateAt h x y z
  exact ⟨g, hg⟩

/-- **Faults.** At single doubles, one for each argument at least, evaluation fails exactly for the
formulas that have a problem other than a constant that is not finite. It fails with the fault that
a walk meets first, and the faults of the walk are those problems in another order. -/
theorem evaluateAt_error_iff (t : Formula) (x y z : Float) (more : List Float) :
    ((∃ fault, t.evaluateAt ((x :: y :: z :: more).map .number) = .error fault) ↔
      ∃ p ∈ t.problems Registry.standard, ∀ v, p ≠ .nonFinite v) ∧
    (∀ fault, t.evaluateAt ((x :: y :: z :: more).map .number) = .error fault ↔
      t.faults.head? = some fault) ∧
    t.faults.Perm ((t.problems Registry.standard).filterMap Problem.fault?) := by
  have hthree : argumentNames.length ≤ (x :: y :: z :: more).length := by
    simp [argumentNames]
  have hsettles := settles_evaluateAt hthree t
  refine ⟨?_, hsettles.error_iff, faults_perm t⟩
  simp only [hsettles.error_iff, ← faults_ne_nil_iff]
  cases t.faults <;> simp

example : (apply "+" [var "w", apply "mean" [], apply "?" []]).faults =
    [.unknownName "w", .noOperands "mean", .unknownOperation "?", .operandCount "+" 3] := by
  decide +kernel

end Formula
end Formulary
