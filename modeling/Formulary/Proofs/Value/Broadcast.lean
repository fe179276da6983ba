import Formulary.Proofs.Value.Faults

/-!
# Grids of all shapes

An operation joins the shapes of its operands, and so a formula joins the shapes
of the arguments that it reads, in whatever order its operations come to them
(`evaluate_isJoint`). If a formula has a value, so has each of its nodes
(`evaluate_nodes`), and if it has none, the fault is one that some node raises by
itself (`exists_raises`).
-/

namespace Formulary

variable {α : Type} {A : Arithmetic α}

namespace Formula

variable {argument : Nat → Except EvalFault (Grid α)}

/-! ## Operands -/

theorem evaluateAll_eq_ok_iff {xs : List Formula} {gs : List (Grid α)} :
    evaluateAll A argument xs = .ok gs ↔
      List.Forall₂ (fun x g => x.evaluate A argument = .ok g) xs gs := by
  induction xs generalizing gs with
  | nil =>
      rw [List.forall₂_nil_left_iff, evaluateAll]
      exact ⟨fun h => by cases h; rfl, fun h => by rw [h]⟩
  | cons x xs ih =>
      rw [List.forall₂_cons_left_iff, evaluateAll_cons]
      constructor
      · intro h
        cases hx : x.evaluate A argument with
        | error fault => rw [hx] at h; cases h
        | ok g =>
            cases hxs : evaluateAll A argument xs with
            | error fault => rw [hx, hxs] at h; cases h
            | ok more =>
                rw [hx, hxs] at h
                cases h
                exact ⟨g, more, rfl, ih.mp hxs, rfl⟩
      · rintro ⟨g, more, hx, hmore, rfl⟩
        rw [hx, ih.mpr hmore]
        rfl

theorem exists_of_evaluateAll_error {xs : List Formula} {fault : EvalFault}
    (h : evaluateAll A argument xs = .error fault) :
    ∃ x ∈ xs, x.evaluate A argument = .error fault := by
  induction xs with
  | nil => cases h
  | cons x xs ih =>
      rw [evaluateAll_cons] at h
      cases hx : x.evaluate A argument with
      | error here =>
          rw [hx] at h
          cases h
          exact ⟨x, List.mem_cons_self, hx⟩
      | ok g =>
          cases hxs : evaluateAll A argument xs with
          | ok gs => rw [hx, hxs] at h; cases h
          | error later =>
              rw [hx, hxs] at h
              cases h
              obtain ⟨y, hy, hfault⟩ := ih hxs
              exact ⟨y, List.mem_cons_of_mem _ hy, hfault⟩

/-- What holds of each operand and its value holds of all operands and theirs. -/
theorem forall₂_of_mem {R S : Formula → Grid α → Prop} {xs : List Formula} {gs : List (Grid α)}
    (h : List.Forall₂ R xs gs) (himp : ∀ x ∈ xs, ∀ g, R x g → S x g) : List.Forall₂ S xs gs := by
  refine ((List.forall₂_and_left xs gs).mpr ⟨himp, h⟩).imp ?_
  rintro x g ⟨hx, hg⟩
  exact hx g hg

theorem exists_value_of_mem {β γ : Type} {R : β → γ → Prop} {xs : List β} {gs : List γ}
    (h : List.Forall₂ R xs gs) : ∀ x ∈ xs, ∃ g ∈ gs, R x g := by
  induction h with
  | nil => exact List.forall_mem_nil _
  | cons hx _ ih =>
      refine List.forall_mem_cons.mpr ⟨⟨_, List.mem_cons_self, hx⟩, fun x hmem => ?_⟩
      obtain ⟨g, hg, hxg⟩ := ih x hmem
      exact ⟨g, List.mem_cons_of_mem _ hg, hxg⟩

theorem exists_operand_of_mem {R : Formula → Grid α → Prop} {xs : List Formula}
    {gs : List (Grid α)} (h : List.Forall₂ R xs gs) : ∀ g ∈ gs, ∃ x ∈ xs, R x g :=
  exists_value_of_mem h.flip

/-- An operation has a value when its operands have values on which it has one. -/
theorem evaluate_apply_eq_ok_iff {symbol : String} {xs : List Formula} {g : Grid α} :
    (apply symbol xs).evaluate A argument = .ok g ↔
      ∃ o gs, Operation.ofSymbol? symbol = some o ∧
        List.Forall₂ (fun x y => x.evaluate A argument = .ok y) xs gs ∧ o.onGrids A gs = .ok g := by
  simp only [← evaluateAll_eq_ok_iff]
  cases ho : Operation.ofSymbol? symbol with
  | none => simp [evaluate, ho]
  | some o =>
      rw [evaluate_apply ho]
      cases evaluateAll A argument xs with
      | error fault => simp [bind, Except.bind]
      | ok gs => simp [bind, Except.bind]

/-- If a formula has a value, so has each of its nodes. -/
theorem evaluate_nodes {t : Formula} : ∀ {g : Grid α}, t.evaluate A argument = .ok g →
    ∀ node ∈ t.nodes .depthFirst, ∃ x, node.evaluate A argument = .ok x := by
  induction t using operandsInduction with
  | const value =>
      intro g h
      exact forall_nodes_iff.mpr ⟨⟨g, h⟩, List.forall_mem_nil _⟩
  | var name =>
      intro g h
      exact forall_nodes_iff.mpr ⟨⟨g, h⟩, List.forall_mem_nil _⟩
  | apply symbol xs ih =>
      intro g h
      obtain ⟨o, gs, -, hxs, -⟩ := evaluate_apply_eq_ok_iff.mp h
      refine forall_nodes_iff.mpr ⟨⟨g, h⟩, fun x hx => ?_⟩
      obtain ⟨y, -, hy⟩ := exists_value_of_mem hxs x hx
      exact ih x hx hy

/-! ## Where a fault comes from -/

/-- The faults that a node raises by itself, all its operands having values. -/
inductive Raises (A : Arithmetic α) (argument : Nat → Except EvalFault (Grid α)) :
    Formula → EvalFault → Prop
  | unknownName {name : String} : argumentIndex? name = none →
      Raises A argument (.var name) (.unknownName name)
  | argument {name : String} {i : Nat} {fault : EvalFault} : argumentIndex? name = some i →
      argument i = .error fault → Raises A argument (.var name) fault
  | unknownOperation {symbol : String} {xs : List Formula} : Operation.ofSymbol? symbol = none →
      Raises A argument (.apply symbol xs) (.unknownOperation symbol)
  | operation {symbol : String} {xs : List Formula} {o : Operation} {gs : List (Grid α)}
      {fault : EvalFault} : Operation.ofSymbol? symbol = some o →
      List.Forall₂ (fun x g => x.evaluate A argument = .ok g) xs gs →
      o.onGrids A gs = .error fault → Raises A argument (.apply symbol xs) fault

/-- **Faults.** If a formula has no value, some node raises the fault. -/
theorem exists_raises {t : Formula} : ∀ {fault : EvalFault}, t.evaluate A argument = .error fault →
    ∃ node ∈ t.nodes .depthFirst, Raises A argument node fault := by
  induction t using operandsInduction with
  | const value =>
      intro fault h
      cases h
  | var name =>
      intro fault h
      refine ⟨_, self_mem_nodes _, ?_⟩
      rw [evaluate] at h
      cases hi : argumentIndex? name with
      | none =>
          rw [hi] at h
          cases h
          exact .unknownName hi
      | some i =>
          rw [hi] at h
          exact .argument hi h
  | apply symbol xs ih =>
      intro fault h
      cases ho : Operation.ofSymbol? symbol with
      | none =>
          rw [evaluate, ho] at h
          cases h
          exact ⟨_, self_mem_nodes _, .unknownOperation ho⟩
      | some o =>
          rw [evaluate_apply ho] at h
          cases hxs : evaluateAll A argument xs with
          | error earlier =>
              rw [hxs] at h
              cases h
              obtain ⟨x, hx, hfault⟩ := exists_of_evaluateAll_error hxs
              obtain ⟨node, hnode, hraises⟩ := ih x hx hfault
              exact ⟨node, mem_nodes_of_operand hx hnode, hraises⟩
          | ok gs =>
              rw [hxs] at h
              exact ⟨_, self_mem_nodes _, .operation ho (evaluateAll_eq_ok_iff.mp hxs) h⟩

theorem argumentAt_eq_ok_iff {arguments : List Argument} {i : Nat} {g : Grid Float} :
    argumentAt arguments i = .ok g ↔ ∃ a, arguments[i]? = some a ∧ a.toGrid = .ok g := by
  rw [argumentAt]
  cases arguments[i]? with
  | none => simp
  | some a => cases hgrid : a.toGrid <;> simp [Except.mapError, hgrid]

/-- There is no argument, or it is no grid. -/
theorem argumentAt_eq_error {arguments : List Argument} {i : Nat} {fault : EvalFault}
    (h : argumentAt arguments i = .error fault) :
    fault = .missingArgument i ∨
      ∃ a ∈ arguments, ∃ why, a.toGrid = .error why ∧ fault = .argument why := by
  rw [argumentAt] at h
  cases ha : arguments[i]? with
  | none =>
      rw [ha] at h
      cases h
      exact .inl rfl
  | some a =>
      rw [ha] at h
      cases hgrid : a.toGrid with
      | ok x => simp [Except.mapError, hgrid] at h
      | error why =>
          simp only [Except.mapError, hgrid, Except.error.injEq] at h
          exact .inr ⟨a, List.mem_of_getElem? ha, why, hgrid, h.symm⟩

/-! ## What is read -/

variable {β : Type}

/-- What a formula reads of what is given position by position: one thing for each name in it. -/
def readFrom (given : List β) (t : Formula) : List β :=
  t.names.filterMap fun name => (argumentIndex? name).bind (given[·]?)

theorem readFrom_eq (given : List β) (t : Formula) :
    t.readFrom given =
      (t.name?.bind fun name => (argumentIndex? name).bind (given[·]?)).toList ++
        t.operands.flatMap (readFrom given) := by
  have hnames : ∀ t : Formula, t.readFrom given = (t.nodes .depthFirst).filterMap
      fun node => node.name?.bind fun name => (argumentIndex? name).bind (given[·]?) :=
    fun t => List.filterMap_filterMap
  rw [hnames, filterMap_nodes]
  exact congrArg _ (congrArg (List.flatMap · t.operands) (funext fun x => (hnames x).symm))

theorem readFrom_apply (given : List β) (symbol : String) (xs : List Formula) :
    (apply symbol xs).readFrom given = xs.flatMap (readFrom given) :=
  readFrom_eq given (apply symbol xs)

theorem readFrom_var (given : List β) {name : String} {i : Nat} {b : β}
    (hi : argumentIndex? name = some i) (hb : given[i]? = some b) :
    (var name).readFrom given = [b] := by
  rw [readFrom_eq, name?, Option.bind_some, hi, Option.bind_some, hb]
  rfl

theorem mem_of_mem_readFrom {given : List β} {t : Formula} {b : β} (h : b ∈ t.readFrom given) :
    b ∈ given := by
  obtain ⟨name, -, hb⟩ := List.mem_filterMap.mp h
  obtain ⟨i, -, hb⟩ := Option.bind_eq_some_iff.mp hb
  exact List.mem_of_getElem? hb

/-- What a node reads, the whole formula reads. -/
theorem readFrom_subset (given : List β) {t : Formula} :
    ∀ node ∈ t.nodes .depthFirst, node.readFrom given ⊆ t.readFrom given := by
  induction t using operandsInduction with
  | const value => exact forall_nodes_iff.mpr ⟨fun _ h => h, List.forall_mem_nil _⟩
  | var name => exact forall_nodes_iff.mpr ⟨fun _ h => h, List.forall_mem_nil _⟩
  | apply symbol xs ih =>
      refine forall_nodes_iff.mpr ⟨fun _ h => h, fun x hx node hnode b hb => ?_⟩
      rw [readFrom_apply]
      exact List.mem_flatMap.mpr ⟨x, hx, ih x hx node hnode hb⟩

section Shapes

variable {grids : List (Grid α)}

/-- The values of operands stretch where the arguments do which the operands read. -/
theorem operands_stretch_iff (symbol : String) {xs : List Formula} {gs : List (Grid α)}
    (h : List.Forall₂ (fun x g => Shape.IsJoint ((x.readFrom grids).map Grid.shape) g.shape) xs gs)
    (t : Shape) :
    (∀ r ∈ gs.map Grid.shape, r.StretchesTo t) ↔
      ∀ r ∈ ((apply symbol xs).readFrom grids).map Grid.shape, r.StretchesTo t := by
  rw [readFrom_apply, List.map_flatMap]
  refine Shape.forall_joints_iff ?_ t
  rw [List.forall₂_map_left_iff, List.forall₂_map_right_iff]
  exact h

/-- **Shapes.** The value of a formula has the joint shape of the arguments that it reads. -/
theorem evaluate_isJoint (hgrids : ∀ i g, argument i = .ok g → grids[i]? = some g) {t : Formula} :
    ∀ {g : Grid α}, t.evaluate A argument = .ok g →
      Shape.IsJoint ((t.readFrom grids).map Grid.shape) g.shape := by
  induction t using operandsInduction with
  | const value =>
      intro g h
      cases h
      rw [readFrom_eq]
      exact Shape.isJoint_nil
  | var name =>
      intro g h
      rw [evaluate] at h
      cases hi : argumentIndex? name with
      | none => rw [hi] at h; cases h
      | some i =>
          rw [hi] at h
          rw [readFrom_var grids hi (hgrids i g h)]
          exact Shape.isJoint_singleton g.shape
  | apply symbol xs ih =>
      intro g h
      obtain ⟨o, gs, -, hxs, hg⟩ := evaluate_apply_eq_ok_iff.mp h
      have houtcome := o.onGrids_outcome (A := A) gs
      rw [hg] at houtcome
      cases houtcome with
      | value _ hjoint _ =>
          have hoperands := forall₂_of_mem hxs fun x hx g hg => ih x hx hg
          exact fun t => (hjoint t).trans (operands_stretch_iff symbol hoperands t)

/-- The operands of a node join if the arguments that it reads do. -/
theorem operands_joinable (hgrids : ∀ i g, argument i = .ok g → grids[i]? = some g)
    (symbol : String) {xs : List Formula} {gs : List (Grid α)}
    (h : List.Forall₂ (fun x g => x.evaluate A argument = .ok g) xs gs)
    (hjoinable : Shape.Joinable (((apply symbol xs).readFrom grids).map Grid.shape)) :
    Shape.Joinable (gs.map Grid.shape) := by
  have hoperands := h.imp fun x g hx => evaluate_isJoint hgrids hx
  exact hjoinable.imp fun t => (operands_stretch_iff symbol hoperands t).mpr

/-- A value has many dimensions just when an argument that is read has. -/
theorem evaluate_isDeep_iff (hgrids : ∀ i g, argument i = .ok g → grids[i]? = some g) {t : Formula}
    {g : Grid α} (h : t.evaluate A argument = .ok g) :
    g.isDeep = true ↔ ∃ x ∈ t.readFrom grids, x.isDeep = true := by
  have hjoint := evaluate_isJoint hgrids h
  simp only [Grid.isDeep, decide_eq_true_iff]
  constructor
  · intro hdeep
    obtain ⟨s, hs, hlt⟩ := hjoint.exists_length_lt hdeep
    obtain ⟨x, hx, rfl⟩ := List.mem_map.mp hs
    exact ⟨x, hx, hlt⟩
  · rintro ⟨x, hx, hlt⟩
    exact Nat.lt_of_lt_of_le hlt (hjoint.stretchesTo (List.mem_map_of_mem hx)).length_le

end Shapes

end Formula
end Formulary
