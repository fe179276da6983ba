import Formulary.Proofs.Number.Zeros
import Formulary.Proofs.Value.Broadcast

/-!
# Evaluating at every point

Evaluating a formula over grids is evaluating it at every point (`evaluateAt_pointwise`).
There are two reasons why it might not be, since an operation on grids is not just
the operation on their entries. A mean that is taken alone is added up in another
order, and from another zero, than one of many; for few operands that makes no
difference (`blockwise_eq_running`). And a power whose exponent is held is computed in
another way than one whose exponent runs, so for the others it is assumed that both
ways agree (`PowersAgree`), as they need not at the negative zero (`evaluate_halfPower`).
-/

namespace Formulary

/-! ## Sums of few terms -/

namespace Arithmetic

theorem sumFrom_zero (x : Float) (terms : List Float) :
    float.sumFrom (Float.add 0 x) terms = Float.add 0 (float.sumFrom x terms) := by
  induction terms generalizing x with
  | nil => rfl
  | cons y terms ih =>
      show float.sumFrom (Float.add (Float.add 0 x) y) terms = _
      rw [Binary64.zero_add_add, ih]
      rfl

/-- With fewer terms than lanes there is only one lane. -/
theorem sumHalves_of_few {terms : List Float} (h : terms.length ≤ 7) :
    float.sumHalves terms = float.sumFrom Binary64.negZero terms := by
  rw [sumHalves, dif_neg (by omega), sumBlock.eq_def]
  split
  · simp only [List.length_cons] at h
    omega
  · rfl

/-- A sum of few terms is the same alone and beside others. -/
theorem blockwise_eq_running {terms : List Float} (hne : terms ≠ [])
    (hfew : terms.length ≤ 7) : float.blockwise terms = float.running terms := by
  cases terms with
  | nil => exact absurd rfl hne
  | cons x terms =>
      have hblock := sumHalves_of_few hfew
      show Float.add 0 (float.sumHalves (x :: terms)) = float.sumFrom (Float.add 0 x) terms
      rw [hblock, sumFrom_zero]
      show Float.add 0 (float.sumFrom (Float.add Binary64.negZero x) terms) = _
      rw [Binary64.negZero_add]

theorem meanOf_alone {terms : List Float} (hne : terms ≠ []) (hfew : terms.length ≤ 7)
    (alone : Bool) : float.meanOf alone terms = float.meanOf true terms := by
  cases alone with
  | true => rfl
  | false =>
      rw [meanOf, meanOf, if_pos rfl, blockwise_eq_running hne hfew]
      rfl

theorem varianceOf_alone {terms : List Float} (hne : terms ≠ []) (hfew : terms.length ≤ 7)
    (alone : Bool) : float.varianceOf alone terms = float.varianceOf true terms := by
  have hsquares : terms.map float.square ≠ [] := by rwa [ne_eq, List.map_eq_nil_iff]
  rw [varianceOf, varianceOf, meanOf_alone hne hfew,
    meanOf_alone hsquares (by rwa [List.length_map])]

end Arithmetic

/-! ## Operations at a point -/

theorem Shape.joinAll_nil (n : Nat) : Shape.joinAll (List.replicate n []) = some [] := by
  induction n with
  | zero => rfl
  | succ n ih => exact ih

namespace Grid

variable {α : Type} {gs : List (Grid α)}

theorem zipWith?_stretched {f : α → α → α} {x y g : Grid α} (h : zipWith? f x y = some g)
    (i : Index) : g.stretched i = f (x.stretched i) (y.stretched i) := by
  obtain ⟨s, hs, rfl⟩ := Option.map_eq_some_iff.mp h
  obtain ⟨hx, hy⟩ := (Shape.stretchesTo_of_join hs s).mp (.refl s)
  show f (x.stretched (s.project i)) (y.stretched (s.project i)) = _
  rw [stretched_project hx, stretched_project hy]

theorem combine?_stretched {f : Bool → List α → α} {g : Grid α} (h : combine? f gs = some g)
    (i : Index) :
    g.stretched i = f (g.shape.volume == 1) (gs.map fun x => x.stretched i) := by
  obtain ⟨s, hs, rfl⟩ := Option.map_eq_some_iff.mp h
  show f _ (gs.map fun x => x.stretched (s.project i)) = _
  congr 1
  refine List.map_congr_left fun x hx => stretched_project ?_ i
  exact (Shape.joinAll_isJoint hs).stretchesTo (List.mem_map_of_mem hx)

theorem not_isDeep_scalar (values : List α) : (values.map scalar).any isDeep = false := by
  rw [List.any_eq_false]
  intro g hg
  obtain ⟨x, -, rfl⟩ := List.mem_map.mp hg
  exact Bool.false_ne_true

theorem combine?_scalar (f : Bool → List α → α) (values : List α) :
    combine? f (values.map scalar) = some (scalar (f true values)) := by
  have hshapes : (values.map scalar).map shape = List.replicate values.length [] := by
    rw [List.map_map, ← List.map_const']
    rfl
  have hentries : ∀ i, (values.map scalar).map (fun x => stretched x i) = values := by
    intro i
    rw [List.map_map]
    exact List.map_id values
  rw [combine?, hshapes, Shape.joinAll_nil, Option.map_some]
  simp only [hentries]
  rfl

end Grid

namespace Operation

open Grid (scalar)

variable {gs : List (Grid Float)} {g : Grid Float} {i : Index}

theorem of_joined {r : Option (Grid Float)} (h : onGrids.joined r = .ok g) : r = some g := by
  cases r with
  | none => cases h
  | some x => cases h; rfl

theorem combined_pointwise {f : Bool → List Float → Float}
    (halone : ∀ alone, f alone (gs.map fun x => x.stretched i) =
      f true (gs.map fun x => x.stretched i))
    (h : onGrids.combined f gs = .ok g) :
    onGrids.combined f (gs.map fun x => scalar (x.stretched i)) = .ok (scalar (g.stretched i)) := by
  have hmap : (gs.map fun x => scalar (x.stretched i)) =
      (gs.map fun x => x.stretched i).map scalar := by rw [List.map_map]; rfl
  rw [onGrids.combined] at h
  split at h
  · cases h
  · rw [hmap, onGrids.combined, Grid.not_isDeep_scalar, Grid.combine?_scalar,
      Grid.combine?_stretched (of_joined h), halone (g.shape.volume == 1)]
    rfl

/-- **Operations at a point.** Each entry of the result is the operation on the entries of the
operands, if sums have few terms and powers agree. -/
theorem onGrids_pointwise {o : Operation} (h : o.onGrids Arithmetic.float gs = .ok g)
    (hfew : o.arity = .variadic → gs.length ≤ 7)
    (hpower : ∀ x y, o = .power → gs = [x, y] → y.shape.holdsFor x.shape = false →
      Float.pow (x.stretched i) (y.stretched i) =
        Arithmetic.floatPowHeld (x.stretched i) (y.stretched i)) :
    o.onGrids Arithmetic.float (gs.map fun x => scalar (x.stretched i)) =
      .ok (scalar (g.stretched i)) := by
  cases o with
  | negate =>
      rcases gs with _ | ⟨x, _ | ⟨y, gs⟩⟩
      · cases h
      · cases h; rfl
      · cases h
  | mean =>
      rcases gs with _ | ⟨x, gs⟩
      · cases h
      · refine combined_pointwise (fun alone => ?_) h
        exact Arithmetic.meanOf_alone (List.cons_ne_nil _ _) (by simpa using hfew rfl) alone
  | variance =>
      rcases gs with _ | ⟨x, gs⟩
      · cases h
      · refine combined_pointwise (fun alone => ?_) h
        exact Arithmetic.varianceOf_alone (List.cons_ne_nil _ _) (by simpa using hfew rfl) alone
  | power =>
      rcases gs with _ | ⟨x, _ | ⟨y, _ | ⟨z, gs⟩⟩⟩
      · cases h
      · cases h
      · rw [Grid.zipWith?_stretched (of_joined h)]
        show Except.ok (scalar (Arithmetic.floatPowHeld (x.stretched i) (y.stretched i))) = _
        cases hheld : y.shape.holdsFor x.shape with
        | true => rfl
        | false => rw [← hpower x y rfl rfl hheld]; rfl
      · cases h
  | _ =>
      rcases gs with _ | ⟨x, _ | ⟨y, _ | ⟨z, gs⟩⟩⟩
      · cases h
      · cases h
      · rw [Grid.zipWith?_stretched (of_joined h)]
        rfl
      · cases h

end Operation

namespace Formula

open Grid (scalar)

/-- Whether a formula is a mean or a variance at its root. -/
def IsAverage (t : Formula) : Prop :=
  t.symbol? = some Operation.mean.symbol ∨ t.symbol? = some Operation.variance.symbol

instance (t : Formula) : Decidable t.IsAverage := inferInstanceAs (Decidable (_ ∨ _))

/-- Whether all means and variances are taken of grids of few dimensions only. -/
def Shallow (grids : List (Grid Float)) (t : Formula) : Prop :=
  ∀ node ∈ t.nodes .depthFirst, node.IsAverage → ∀ x ∈ node.readFrom grids, x.isDeep = false

/-- Whether, at an index, each power whose exponent is not held is what it would be if it were. -/
def PowersAgree (arguments : List Argument) (i : Index) (t : Formula) : Prop :=
  ∀ base exponent, apply Operation.power.symbol [base, exponent] ∈ t.nodes .depthFirst →
    ∀ x y, base.evaluateAt arguments = .ok x → exponent.evaluateAt arguments = .ok y →
      y.shape.holdsFor x.shape = false →
      Float.pow (x.stretched i) (y.stretched i) =
        Arithmetic.floatPowHeld (x.stretched i) (y.stretched i)

theorem isAverage_apply_iff {symbol : String} {xs : List Formula} {o : Operation}
    (ho : Operation.ofSymbol? symbol = some o) :
    (apply symbol xs).IsAverage ↔ o.arity = .variadic := by
  rw [IsAverage, symbol?, ← Operation.symbol_of_ofSymbol? ho]
  cases o <;> decide

variable {arguments : List Argument} {grids : List (Grid Float)} {t : Formula}

theorem argumentAt_grids_iff (hgrids : arguments.map Argument.toGrid = grids.map .ok) (i : Nat)
    (g : Grid Float) : argumentAt arguments i = .ok g ↔ grids[i]? = some g := by
  have hat : arguments[i]?.map Argument.toGrid = grids[i]?.map .ok := by
    rw [← List.getElem?_map, hgrids, List.getElem?_map]
  have hgrid : argumentAt arguments i = .ok g ↔
      arguments[i]?.map Argument.toGrid = some (.ok g) := by
    rw [argumentAt_eq_ok_iff, Option.map_eq_some_iff]
  rw [hgrid, hat]
  cases grids[i]? <;> simp

/-- What an argument gives is the grid at its position. -/
theorem getElem?_of_argumentAt (hgrids : arguments.map Argument.toGrid = grids.map .ok) (i : Nat)
    (g : Grid Float) : argumentAt arguments i = .ok g → grids[i]? = some g :=
  (argumentAt_grids_iff hgrids i g).mp

/-- At an index of the result, a formula takes the value that it takes at the entries of the
arguments. -/
theorem evaluate_pointwise {point : Nat → Except EvalFault (Grid Float)} {i : Index}
    (hpoint : ∀ k g, argumentAt arguments k = .ok g → point k = .ok (scalar (g.stretched i)))
    (hfew : ∀ node ∈ t.nodes .depthFirst, node.IsAverage →
      node.operands.length ≤ 7)
    (hpowers : t.PowersAgree arguments i) :
    ∀ {g : Grid Float}, t.evaluateAt arguments = .ok g →
      t.evaluate Arithmetic.float point = .ok (scalar (g.stretched i)) := by
  induction t using operandsInduction with
  | const value =>
      intro g h
      cases h
      rfl
  | var name =>
      intro g h
      rw [evaluateAt, evaluate] at h
      rw [evaluate]
      cases hk : argumentIndex? name with
      | none => rw [hk] at h; cases h
      | some k =>
          rw [hk] at h
          exact hpoint k g h
  | apply symbol xs ih =>
      intro g h
      obtain ⟨o, gs, ho, hxs, hg⟩ := evaluate_apply_eq_ok_iff.mp h
      obtain ⟨hhere, hbelow⟩ := forall_nodes_iff.mp hfew
      have hentries : List.Forall₂ (fun x g => x.evaluate Arithmetic.float point = .ok g) xs
          (gs.map fun x => scalar (x.stretched i)) := by
        rw [List.forall₂_map_right_iff]
        refine forall₂_of_mem hxs fun x hx g hg => ih x hx (hbelow x hx) ?_ hg
        exact fun base exponent hnode => hpowers base exponent (mem_nodes_of_operand hx hnode)
      refine evaluate_apply_eq_ok_iff.mpr ⟨o, _, ho, hentries, ?_⟩
      refine Operation.onGrids_pointwise hg (fun harity => ?_) ?_
      · rw [← hxs.length_eq]
        exact hhere ((isAverage_apply_iff ho).mpr harity)
      · rintro x y rfl rfl hheld
        rw [← Operation.symbol_of_ofSymbol? ho] at hpowers
        cases hxs with
        | cons hbase hrest =>
            cases hrest with
            | cons hexponent hnil =>
                cases hnil
                exact hpowers _ _ (self_mem_nodes _) x y hbase hexponent hheld

/-! ## Which formulas have a value -/

/-- Without a problem a node only raises faults of shapes. -/
theorem Raises.of_problems (hgrids : arguments.map Argument.toGrid = grids.map .ok)
    (hthree : argumentNames.length ≤ arguments.length)
    (hvalid : t.problems Registry.standard = []) {node : Formula}
    (hnode : node ∈ t.nodes .depthFirst) {fault : EvalFault}
    (h : Raises Arithmetic.float (argumentAt arguments) node fault) :
    (fault = .shapeMismatch ∧ ¬ Shape.Joinable ((t.readFrom grids).map Grid.shape)) ∨
      (fault = .tooManyDimensions ∧ ¬ t.Shallow grids) := by
  have hread := getElem?_of_argumentAt hgrids
  have hproblem : problem? Registry.standard node = none :=
    List.filterMap_eq_nil_iff.mp hvalid node hnode
  cases h with
  | @unknownName name hname =>
      rw [problem?, contains_of_argumentIndex?_eq_none hname] at hproblem
      cases hproblem
  | @argument name i fault hi hfault =>
      have hlt := (lt_of_argumentIndex?_eq_some hi).1
      have hlength := congrArg List.length hgrids
      rw [List.length_map, List.length_map] at hlength
      have hat := List.getElem?_eq_getElem (l := grids) (i := i) (by omega)
      rw [(argumentAt_grids_iff hgrids i _).mpr hat] at hfault
      cases hfault
  | unknownOperation hsymbol =>
      obtain ⟨o, ho, -⟩ := problem?_apply_eq_none_iff.mp hproblem
      rw [hsymbol] at ho
      cases ho
  | @operation symbol xs o gs fault ho hxs hfault =>
      have houtcome := o.onGrids_outcome (A := Arithmetic.float) gs
      rw [hfault] at houtcome
      cases houtcome with
      | mismatch _ hmismatch =>
          refine .inl ⟨rfl, fun h => hmismatch (operands_joinable hread symbol hxs ?_)⟩
          exact h.mono (List.map_subset _ (readFrom_subset grids _ hnode))
      | tooDeep _ harity hdeep =>
          refine .inr ⟨rfl, fun h => ?_⟩
          obtain ⟨g, hg, hdeep⟩ := hdeep
          obtain ⟨x, hx, hvalue⟩ := exists_operand_of_mem hxs g hg
          obtain ⟨y, hy, hdeep⟩ := (evaluate_isDeep_iff hread hvalue).mp hdeep
          have hmem : y ∈ (apply symbol xs).readFrom grids := by
            rw [readFrom_apply]
            exact List.mem_flatMap.mpr ⟨x, hx, hy⟩
          rw [h _ hnode ((isAverage_apply_iff ho).mpr harity) y hmem] at hdeep
          cases hdeep
      | count hcount =>
          obtain ⟨o', ho', hadmits⟩ := problem?_apply_eq_none_iff.mp hproblem
          rw [ho, Option.some_inj] at ho'
          rw [Operation.countFault?, ← hxs.length_eq, ho', hadmits] at hcount
          cases hcount

theorem shallow_of_evaluateAt (hgrids : arguments.map Argument.toGrid = grids.map .ok)
    {g : Grid Float} (h : t.evaluateAt arguments = .ok g) : t.Shallow grids := by
  intro node hnode haverage y hy
  have hread := getElem?_of_argumentAt hgrids
  obtain ⟨value, hvalue⟩ := evaluate_nodes h node hnode
  cases node with
  | const value => rcases haverage with h | h <;> cases h
  | var name => rcases haverage with h | h <;> cases h
  | apply symbol xs =>
      obtain ⟨o, gs, ho, hxs, hg⟩ := evaluate_apply_eq_ok_iff.mp hvalue
      have harity := (isAverage_apply_iff ho).mp haverage
      have houtcome := o.onGrids_outcome (A := Arithmetic.float) gs
      rw [hg] at houtcome
      cases houtcome with
      | value _ _ hshallow =>
          rw [readFrom_apply] at hy
          obtain ⟨x, hx, hy⟩ := List.mem_flatMap.mp hy
          obtain ⟨value, hmem, hvalue⟩ := exists_value_of_mem hxs x hx
          rw [Bool.eq_false_iff]
          intro hdeep
          have hvalueDeep := (evaluate_isDeep_iff hread hvalue).mpr ⟨y, hy, hdeep⟩
          rw [hshallow harity value hmem] at hvalueDeep
          cases hvalueDeep

/-- **Evaluating at every point.** A formula without problems, whose means and variances have at
most seven operands, has a value over grids just when those that it reads stretch to a common shape
and means are taken of grids of few dimensions only. The value then has the least such shape, and
each of its entries is what the formula takes at the corresponding entries of the arguments, if
its powers agree there. -/
theorem evaluateAt_pointwise (hvalid : t.problems Registry.standard = [])
    (hfew : ∀ node ∈ t.nodes .depthFirst, node.IsAverage → node.operands.length ≤ 7)
    (hgrids : arguments.map Argument.toGrid = grids.map .ok)
    (hthree : argumentNames.length ≤ arguments.length) :
    ((∃ g, t.evaluateAt arguments = .ok g) ↔
      Shape.Joinable ((t.readFrom grids).map Grid.shape) ∧ t.Shallow grids) ∧
    (∀ fault, t.evaluateAt arguments = .error fault →
      (fault = .shapeMismatch ∧ ¬ Shape.Joinable ((t.readFrom grids).map Grid.shape)) ∨
        (fault = .tooManyDimensions ∧ ¬ t.Shallow grids)) ∧
    ∀ g, t.evaluateAt arguments = .ok g →
      Shape.IsJoint ((t.readFrom grids).map Grid.shape) g.shape ∧
      ∀ i ∈ g.shape.indices, t.PowersAgree arguments i →
        t.evaluateAt (grids.map fun x => .number (x.stretched i)) = .ok (scalar (g.entry i)) := by
  have hread := getElem?_of_argumentAt hgrids
  have hfaults : ∀ fault, t.evaluateAt arguments = .error fault →
      (fault = .shapeMismatch ∧ ¬ Shape.Joinable ((t.readFrom grids).map Grid.shape)) ∨
        (fault = .tooManyDimensions ∧ ¬ t.Shallow grids) := by
    intro fault hfault
    obtain ⟨node, hnode, hraises⟩ := exists_raises hfault
    exact hraises.of_problems hgrids hthree hvalid hnode
  refine ⟨⟨?_, ?_⟩, hfaults, ?_⟩
  · rintro ⟨g, hg⟩
    exact ⟨(evaluate_isJoint hread hg).joinable, shallow_of_evaluateAt hgrids hg⟩
  · rintro ⟨hjoinable, hshallow⟩
    cases hresult : t.evaluateAt arguments with
    | ok g => exact ⟨g, rfl⟩
    | error fault =>
        rcases hfaults fault hresult with ⟨-, h⟩ | ⟨-, h⟩
        · exact absurd hjoinable h
        · exact absurd hshallow h
  · intro g hg
    refine ⟨evaluate_isJoint hread hg, fun i hi hpowers => ?_⟩
    rw [← Grid.stretched_of_mem_indices hi]
    have hpoints : (grids.map fun x => Argument.number (x.stretched i)).map Argument.toGrid =
        (grids.map fun x => scalar (x.stretched i)).map .ok := by
      rw [List.map_map, List.map_map]
      rfl
    refine evaluate_pointwise (fun k x hx => ?_) hfew hpowers hg
    rw [argumentAt_grids_iff hpoints, List.getElem?_map, hread k x hx]
    rfl

/-- A column of two numbers squared and averaged with a row of three, read at one point. -/
theorem evaluateAt_pointwise_meanWithSquare :
    ∃ g, (apply "mean" [apply "pow" [var "x", const 2], var "y"]).evaluateAt
        [.list [.list [.number 1], .list [.number 7]], .list [.number 3, .number 4, .number 5],
          .number 0] = .ok g ∧
      g.shape = [3, 2] ∧
      (apply "mean" [apply "pow" [var "x", const 2], var "y"]).evaluateAt
        [.number 7, .number 4, .number 0] = .ok (scalar (g.entry [1, 1])) := by
  have hfew : ∀ node ∈ (apply "mean" [apply "pow" [var "x", const 2], var "y"]).nodes .depthFirst,
      node.IsAverage → node.operands.length ≤ 7 := by
    rw [nodes_depthFirst]
    decide +kernel
  obtain ⟨-, -, hpoint⟩ := @evaluateAt_pointwise
    [.list [.list [.number 1], .list [.number 7]], .list [.number 3, .number 4, .number 5],
      .number 0]
    [.ofEntries [1, 2] #[1, 7] Binary64.notANumber, .ofEntries [3] #[3, 4, 5] Binary64.notANumber,
      .ofEntries [] #[0] Binary64.notANumber]
    (apply "mean" [apply "pow" [var "x", const 2], var "y"])
    (by decide +kernel) hfew rfl (by decide)
  obtain ⟨-, hentries⟩ := hpoint ⟨[3, 2], _⟩ rfl
  refine ⟨⟨[3, 2], _⟩, rfl, rfl, hentries [1, 1] (by decide) ?_⟩
  intro base exponent hnode x y _ hy hheld
  have hexponent : exponent = const 2 := by
    rw [nodes_depthFirst] at hnode
    simp [preorder, preorderAll, Operation.symbol] at hnode
    exact hnode.2
  rw [hexponent] at hy
  cases hy
  cases hheld

/-- A mean of a grid of too many dimensions and a number has no value, although the number
stretches to the shape of the grid. -/
theorem evaluateAt_deepMean :
    (apply "mean" [var "x", var "y"]).problems Registry.standard = [] ∧
    (∃ grids : List (Grid Float),
      [Nat.repeat (fun a => .list [a]) 33 (.number 1), .number 3, .number 1].map Argument.toGrid =
        grids.map .ok ∧
      Shape.Joinable (((apply "mean" [var "x", var "y"]).readFrom grids).map Grid.shape)) ∧
    (apply "mean" [var "x", var "y"]).evaluateAt
        [Nat.repeat (fun a => .list [a]) 33 (.number 1), .number 3, .number 1] =
      .error .tooManyDimensions := by
  refine ⟨by decide +kernel, ⟨[⟨List.replicate 33 1, _⟩, ⟨[], _⟩, ⟨[], _⟩], rfl, ?_⟩, rfl⟩
  rw [readFrom_apply, List.flatMap_cons, List.flatMap_singleton,
    readFrom_var _ (i := 0) rfl rfl, readFrom_var _ (i := 1) rfl rfl]
  refine ⟨List.replicate 33 1, List.forall_mem_cons.mpr ⟨.refl _, ?_⟩⟩
  exact List.forall_mem_singleton.mpr trivial

/-- Powers have to agree: one that makes zero positive, as documented, shows whether its exponent
is held. Raised to one half as a number the negative zero keeps its sign, and in a list beside a
list of exponents it loses it. -/
theorem evaluate_halfPower {ln : Float → Float} {pow : Float → Float → Float}
    (hpow : pow Binary64.negZero 0.5 = 0) :
    (∃ g, (apply "pow" [var "x", var "y"]).evaluate (.machine ln pow)
        (argumentAt [.list [.number Binary64.negZero], .list [.number 0.5]]) = .ok g ∧
      g.entries = [0]) ∧
    (∃ g, (apply "pow" [var "x", var "y"]).evaluate (.machine ln pow)
        (argumentAt [.number Binary64.negZero, .number 0.5]) = .ok g ∧
      g.entries = [Binary64.negZero]) ∧
    Binary64.negZero ≠ 0 := by
  have hroot : Arithmetic.heldPow pow Binary64.negZero 0.5 = Binary64.negZero := by
    rw [Arithmetic.heldPow, if_neg (by decide), if_neg (by decide), if_pos (by decide)]
    decide
  exact ⟨⟨_, rfl, congrArg (fun x => [x]) hpow⟩, ⟨_, rfl, congrArg (fun x => [x]) hroot⟩, by decide⟩

end Formula
end Formulary
