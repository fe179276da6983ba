import Formulary.Proofs.Formula.LeftSpine
import Mathlib

/-!
# The two walks

A queue of pending nodes spans two levels at most: what is left of the one, and the
operands of what has been visited of it. So a queue is emptied level by level
(`visitQueue_append`), and a walk with a queue gives the levels of a formula, as many
as it is deep. A level is what the addresses of one length lead to, in the order of
the addresses (`map_level`).

Every node is of one kind, so that the lists of nodes by their kind make up the walk.
-/

namespace Formulary.Formula

/-! ## Levels -/

/-- The level below several formulas is put together from those below each of them. -/
theorem level_eq_flatMap (d : Nat) (ts : List Formula) :
    level d ts = ts.flatMap fun t => level d [t] := by
  induction d generalizing ts with
  | zero => exact (List.flatMap_singleton' ts).symm
  | succ d ih =>
      have hone : ∀ t : Formula, level (d + 1) [t] = t.operands.flatMap fun x => level d [x] := by
        intro t
        rw [level, List.flatMap_singleton, ih]
      simp only [hone]
      rw [level, ih, List.flatMap_assoc]

/-- A level of a formula is put together from those of its operands that are one higher. -/
theorem level_succ (d : Nat) (t : Formula) :
    level (d + 1) [t] = t.operands.flatMap fun x => level d [x] := by
  rw [level, List.flatMap_singleton, level_eq_flatMap]

theorem depth_eq (t : Formula) : t.depth = 1 + depthAll t.operands := by
  cases t <;> rfl

theorem depthAll_append (xs ys : List Formula) :
    depthAll (xs ++ ys) = max (depthAll xs) (depthAll ys) := by
  induction xs with
  | nil => exact (Nat.zero_max _).symm
  | cons x xs ih => rw [List.cons_append, depthAll, ih, depthAll, Nat.max_assoc]

/-- One level down there is one level less. -/
theorem depthAll_operands (ts : List Formula) :
    depthAll (ts.flatMap operands) = depthAll ts - 1 := by
  induction ts with
  | nil => rfl
  | cons t ts ih =>
      rw [List.flatMap_cons, depthAll_append, ih, depthAll, depth_eq]
      omega

theorem depthAll_eq_zero_iff {ts : List Formula} : depthAll ts = 0 ↔ ts = [] := by
  cases ts with
  | nil => exact iff_of_true rfl rfl
  | cons t ts =>
      refine iff_of_false ?_ (List.cons_ne_nil t ts)
      rw [depthAll, depth_eq]
      omega

/-- A formula has as many levels as it is deep. -/
theorem level_ne_nil_iff {d : Nat} {ts : List Formula} :
    level d ts ≠ [] ↔ d < depthAll ts := by
  induction d generalizing ts with
  | zero => rw [level, Nat.pos_iff_ne_zero, not_iff_not, depthAll_eq_zero_iff]
  | succ d ih =>
      rw [level, ih, depthAll_operands]
      omega

/-! ## Addresses -/

/-- The addresses of one length, in the order in which a text lists them. -/
def addresses : Nat → Formula → List (List Nat)
  | 0, _ => [[]]
  | d + 1, t => t.operands.zipIdx.flatMap fun p => (addresses d p.1).map (p.2 :: ·)

theorem mem_addresses {d : Nat} {t : Formula} {path : List Nat} :
    path ∈ addresses d t ↔ path.length = d ∧ (t.at? path).isSome := by
  induction d generalizing t path with
  | zero =>
      rw [addresses, List.mem_singleton, List.length_eq_zero_iff]
      exact ⟨fun h => ⟨h, by rw [h]; rfl⟩, And.left⟩
  | succ d ih =>
      rw [addresses, List.mem_flatMap]
      constructor
      · rintro ⟨⟨x, i⟩, hx, hpath⟩
        obtain ⟨rest, hrest, rfl⟩ := List.mem_map.mp hpath
        obtain ⟨hlength, hsome⟩ := ih.mp hrest
        refine ⟨by rw [List.length_cons, hlength], ?_⟩
        rwa [at?, List.mem_zipIdx_iff_getElem?.mp hx]
      · rintro ⟨hlength, hsome⟩
        cases path with
        | nil => cases hlength
        | cons i rest =>
            rw [at?] at hsome
            cases hx : t.operands[i]? with
            | none =>
                rw [hx] at hsome
                cases hsome
            | some x =>
                rw [hx] at hsome
                refine ⟨(x, i), List.mem_zipIdx_iff_getElem?.mpr hx, List.mem_map.mpr ?_⟩
                exact ⟨rest, ih.mpr ⟨Nat.succ.inj hlength, hsome⟩, rfl⟩

theorem addresses_sorted (d : Nat) (t : Formula) : (addresses d t).Pairwise (· < ·) := by
  induction d generalizing t with
  | zero => exact List.pairwise_singleton _ _
  | succ d ih =>
      rw [addresses, List.pairwise_flatMap]
      constructor
      · intro p _
        rw [List.pairwise_map]
        exact (ih p.1).imp fun h => List.cons_lt_cons_iff.mpr (.inr ⟨rfl, h⟩)
      · have hpositions : (t.operands.zipIdx.map Prod.snd).Pairwise (· < ·) := by
          rw [List.zipIdx_map_snd]
          exact List.pairwise_lt_range'
        refine (List.pairwise_map.mp hpositions).imp fun {p q} hlt => ?_
        intro path hpath path' hpath'
        obtain ⟨rest, -, rfl⟩ := List.mem_map.mp hpath
        obtain ⟨rest', -, rfl⟩ := List.mem_map.mp hpath'
        exact List.cons_lt_cons_iff.mpr (.inl hlt)

/-- A level is what the addresses of one length lead to. -/
theorem map_level (d : Nat) (t : Formula) :
    (level d [t]).map some = (addresses d t).map t.at? := by
  induction d generalizing t with
  | zero => rfl
  | succ d ih =>
      have hoperand : ∀ p ∈ t.operands.zipIdx,
          ((addresses d p.1).map (p.2 :: ·)).map t.at? = (level d [p.1]).map some := by
        intro p hp
        rw [ih, List.map_map]
        refine List.map_congr_left fun rest _ => ?_
        rw [Function.comp_apply, at?, List.mem_zipIdx_iff_getElem?.mp hp]
        rfl
      rw [addresses, List.map_flatMap, List.flatMap_congr hoperand, level_succ, List.map_flatMap]
      conv_lhs => rw [← List.zipIdx_map_fst 0 t.operands]
      rw [List.flatMap_map]

/-! ## The queue -/

/-- **Two levels.** The rest of a level is visited before anything below it, while what is below
it joins the queue. -/
theorem visitQueue_append (xs ys : List Formula) :
    visitQueue (xs ++ ys) = xs ++ visitQueue (ys ++ xs.flatMap operands) := by
  induction xs generalizing ys with
  | nil => rw [List.nil_append, List.nil_append, List.flatMap_nil, List.append_nil]
  | cons x xs ih =>
      rw [List.cons_append, visitQueue, List.append_assoc, ih, List.flatMap_cons,
        List.append_assoc, List.cons_append]

/-- Walking with a queue gives one level after the other. -/
theorem visitQueue_eq_levels (ts : List Formula) :
    visitQueue ts = (List.range (depthAll ts)).flatMap fun d => level d ts := by
  generalize hn : depthAll ts = n
  induction n generalizing ts with
  | zero =>
      obtain rfl := depthAll_eq_zero_iff.mp hn
      rw [visitQueue]
      rfl
  | succ n ih =>
      have hbelow : depthAll (ts.flatMap operands) = n := by
        rw [depthAll_operands, hn, Nat.add_sub_cancel]
      have hlevel := visitQueue_append ts []
      rw [List.append_nil, List.nil_append] at hlevel
      rw [hlevel, ih _ hbelow, List.range_succ_eq_map, List.flatMap_cons, List.flatMap_map]
      rfl

theorem nodes_breadthFirst (t : Formula) : t.nodes .breadthFirst = t.levels := by
  have hdepth : depthAll [t] = t.depth := Nat.max_zero _
  rw [nodes, visitQueue_eq_levels, hdepth, levels]

/-- Both walks visit the same nodes. -/
theorem visitQueue_perm (ts : List Formula) : (visitQueue ts).Perm (preorderAll ts) := by
  fun_induction visitQueue ts with
  | case1 => exact .refl _
  | case2 t pending ih =>
      rw [preorderAll, preorder_eq_cons, List.cons_append]
      refine (ih.trans ?_).cons t
      rw [preorderAll_append]
      exact List.perm_append_comm

mutual
theorem length_preorder : (t : Formula) → t.preorder.length = t.size
  | .const _ => rfl
  | .var _ => rfl
  | .apply symbol xs => by
      rw [preorder, List.length_cons, length_preorderAll xs, size, Nat.add_comm]
theorem length_preorderAll : (xs : List Formula) → (preorderAll xs).length = sizeAll xs
  | [] => rfl
  | x :: xs => by
      rw [preorderAll, List.length_append, length_preorder x, length_preorderAll xs, sizeAll]
end

/-! ## Kinds -/

/-- Nodes of the three kinds make up all nodes. -/
theorem perm_kinds (ns : List Formula) :
    ns.Perm (ns.filter (fun n => n.kind == .constant) ++ ns.filter (fun n => n.kind == .name) ++
      ns.filter fun n => n.kind == .operation) := by
  induction ns with
  | nil => exact .refl _
  | cons n ns ih =>
      cases n with
      | const value => exact ih.cons _
      | var name =>
          refine (ih.cons _).trans ?_
          simp only [List.append_assoc]
          exact List.perm_middle.symm
      | apply symbol xs => exact (ih.cons _).trans List.perm_middle.symm

/-- What is collected of a walk by a test that just the nodes of a kind pass is collected of the
nodes of that kind. -/
theorem map_ofKind {α β : Type} {k : Kind} {p : Formula → Option α} {f : Formula → β} {g : α → β}
    (hkind : ∀ n, if n.kind = k then (p n).map g = some (f n) else p n = none) (t : Formula) :
    (t.ofKind k).map f = ((t.nodes .depthFirst).filterMap p).map g := by
  unfold ofKind
  induction t.nodes .depthFirst with
  | nil => rfl
  | cons n ns ih =>
      have hn := hkind n
      by_cases h : n.kind = k
      · rw [if_pos h] at hn
        obtain ⟨a, ha, hf⟩ := Option.map_eq_some_iff.mp hn
        have hkept : (n.kind == k) = true := beq_iff_eq.mpr h
        rw [List.filter_cons, if_pos hkept, List.filterMap_cons_some ha, List.map_cons,
          List.map_cons, ih, hf]
      · rw [if_neg h] at hn
        have hdropped : ¬ (n.kind == k) = true := fun hkept => h (beq_iff_eq.mp hkept)
        rw [List.filter_cons, if_neg hdropped, List.filterMap_cons_none hn, ih]

theorem ofKind_constant (t : Formula) : t.ofKind .constant = t.constants.map const := by
  rw [← List.map_id (t.ofKind .constant)]
  exact map_ofKind (p := constant?) (fun n => by cases n <;> rfl) t

theorem ofKind_name (t : Formula) : t.ofKind .name = t.names.map var := by
  rw [← List.map_id (t.ofKind .name)]
  exact map_ofKind (p := name?) (fun n => by cases n <;> rfl) t

theorem ofKind_operation (t : Formula) :
    (t.ofKind .operation).map symbol? = t.symbols.map some :=
  map_ofKind (p := symbol?) (fun n => by cases n <;> rfl) t

/-- Counted name by name, all names are counted. -/
theorem sum_counts (names : List String) :
    (names.eraseDups.map fun n => names.count n).sum = names.length := by
  induction hlength : names.length using Nat.strongRecOn generalizing names with
  | ind n ih =>
      cases names with
      | nil => exact hlength
      | cons name names =>
          have hshorter : (names.filter fun n => !n == name).length < n := by
            rw [← hlength]
            exact Nat.lt_succ_of_le (List.length_filter_le _ _)
          have hlater : ∀ other ∈ (names.filter fun n => !n == name).eraseDups,
              (name :: names).count other = (names.filter fun n => !n == name).count other := by
            intro other hother
            have hkept := (List.mem_filter.mp (List.mem_eraseDups.mp hother)).2
            have hne : name ≠ other := by
              rintro rfl
              simp at hkept
            rw [List.count_filter (p := fun n => !n == name) hkept, List.count_cons_of_ne hne]
          have hsplit := names.length_eq_countP_add_countP (· == name)
          rw [List.eraseDups_cons, List.map_cons, List.sum_cons, List.map_congr_left hlater,
            ih _ hshorter _ rfl, List.count_cons_self, ← List.countP_eq_length_filter, ← hlength,
            List.length_cons, hsplit]
          simp only [List.count, Bool.not_eq_true, Bool.decide_eq_false]
          omega

theorem sum_nameCounts (t : Formula) : (t.nameCounts.map Prod.snd).sum = t.names.length := by
  rw [nameCounts, List.map_map]
  exact sum_counts t.names

/-- **The walks.** A walk with a stack gives the pre-order. A walk with a queue gives one level
after the other, as many as the formula is deep; a level lists the nodes at one distance from the
root, in the order of their addresses. Both visit every node once. The constants, the names and the
operations are the nodes of the pre-order in three parts, and the names are counted each by
itself. -/
theorem walks_and_levels (t : Formula) :
    (VisitOrder.ofName? "depth_first").map (fun order => t.nodes order) = some t.preorder ∧
    (VisitOrder.ofName? "breadth_first").map (fun order => t.nodes order) =
      some ((List.range t.depth).flatMap fun d => level d [t]) ∧
    (∀ d, level d [t] ≠ [] ↔ d < t.depth) ∧
    (∀ d, ∃ paths : List (List Nat), paths.Pairwise (· < ·) ∧
      (∀ path, path ∈ paths ↔ path.length = d ∧ (t.at? path).isSome) ∧
      (level d [t]).map some = paths.map t.at?) ∧
    (t.nodes .breadthFirst).Perm (t.nodes .depthFirst) ∧
    (t.nodes .breadthFirst).length = t.size ∧ (t.nodes .depthFirst).length = t.size ∧
    (∀ k, (t.ofKind k).Sublist t.preorder) ∧
    t.preorder.Perm (t.ofKind .constant ++ t.ofKind .name ++ t.ofKind .operation) ∧
    t.ofKind .constant = t.constants.map const ∧ t.ofKind .name = t.names.map var ∧
    (t.ofKind .operation).map symbol? = t.symbols.map some ∧
    t.constants.length + t.names.length + t.symbols.length = t.size ∧
    (t.nameCounts.map Prod.snd).sum = t.names.length := by
  have hperm : (t.nodes .breadthFirst).Perm (t.nodes .depthFirst) := by
    rw [nodes, nodes, visitStack_eq]
    exact visitQueue_perm [t]
  have hlength : (t.nodes .depthFirst).length = t.size := by rw [nodes_depthFirst, length_preorder]
  have hkinds : t.preorder.Perm (t.ofKind .constant ++ t.ofKind .name ++ t.ofKind .operation) := by
    simp only [ofKind, nodes_depthFirst]
    exact perm_kinds t.preorder
  have hdepth : depthAll [t] = t.depth := Nat.max_zero _
  refine ⟨congrArg some (nodes_depthFirst t), congrArg some (nodes_breadthFirst t), fun d => ?_,
    fun d => ?_, hperm, hperm.length_eq.trans hlength, hlength, fun k => ?_, hkinds,
    ofKind_constant t, ofKind_name t, ofKind_operation t, ?_, sum_nameCounts t⟩
  · rw [level_ne_nil_iff, hdepth]
  · exact ⟨addresses d t, addresses_sorted d t, fun _ => mem_addresses, map_level d t⟩
  · rw [ofKind, nodes_depthFirst]
    exact List.filter_sublist
  · have hoperations := congrArg List.length (ofKind_operation t)
    rw [List.length_map, List.length_map] at hoperations
    rw [← length_preorder, hkinds.length_eq, List.length_append, List.length_append,
      ofKind_constant, ofKind_name, hoperations, List.length_map, List.length_map]

end Formulary.Formula
