import Formulary.Value.Grid
import Mathlib.Data.List.Forall2

/-!
# Shapes that stretch

One shape stretches to another when along every dimension it has the same length
or length one. Joining shapes finds the least shape to which all of them stretch,
if there is any (`joinAll_isJoint`, `exists_joinAll`). So it does not matter in which order shapes are joined, nor
in how many steps.
-/

namespace Formulary

namespace Shape

/-- Whether a shape stretches to another one, which may have more dimensions. -/
def StretchesTo : Shape → Shape → Prop
  | [], _ => True
  | _ :: _, [] => False
  | a :: s, b :: t => (a = 1 ∨ a = b) ∧ StretchesTo s t

/-- The least shape to which some shapes stretch: it stretches just where all of them do. -/
def IsJoint (shapes : List Shape) (s : Shape) : Prop :=
  ∀ t, s.StretchesTo t ↔ ∀ r ∈ shapes, r.StretchesTo t

/-- Whether there is a shape to which all shapes stretch. -/
def Joinable (shapes : List Shape) : Prop := ∃ t, ∀ r ∈ shapes, r.StretchesTo t

/-! ## The order -/

theorem StretchesTo.refl (s : Shape) : s.StretchesTo s := by
  induction s with
  | nil => trivial
  | cons a s ih => exact ⟨.inr rfl, ih⟩

theorem StretchesTo.antisymm {s t : Shape} (hst : s.StretchesTo t) (hts : t.StretchesTo s) :
    s = t := by
  induction s generalizing t with
  | nil =>
      cases t with
      | nil => rfl
      | cons b t => exact hts.elim
  | cons a s ih =>
      cases t with
      | nil => exact hst.elim
      | cons b t =>
          obtain ⟨hab, hst⟩ := hst
          obtain ⟨hba, hts⟩ := hts
          have hlength : a = b := by omega
          rw [hlength, ih hst hts]

theorem StretchesTo.length_le {s t : Shape} (h : s.StretchesTo t) : s.length ≤ t.length := by
  induction s generalizing t with
  | nil => exact Nat.zero_le _
  | cons a s ih =>
      cases t with
      | nil => exact h.elim
      | cons b t => exact Nat.succ_le_succ (ih h.2)

/-- What stretches to a shape needs only as many of its dimensions as it has itself. -/
theorem StretchesTo.take {s t : Shape} {n : Nat} (h : s.StretchesTo t) (hn : s.length ≤ n) :
    s.StretchesTo (t.take n) := by
  induction s generalizing t n with
  | nil => trivial
  | cons a s ih =>
      cases t with
      | nil => exact h.elim
      | cons b t =>
          cases n with
          | zero => cases hn
          | succ n => exact ⟨h.1, ih h.2 (Nat.le_of_succ_le_succ hn)⟩

/-- Standing still along dimensions of one, first for the larger shape and then for the smaller
one, is the same as doing it for the smaller one at once. -/
theorem StretchesTo.project_project {s t : Shape} (h : s.StretchesTo t) (i : Index) :
    s.project (t.project i) = s.project i := by
  induction s generalizing t i with
  | nil => rfl
  | cons a s ih =>
      cases t with
      | nil => exact h.elim
      | cons b t =>
          cases i with
          | nil => rfl
          | cons k i =>
              obtain ⟨hab, hst⟩ := h
              simp only [project, ih hst, List.cons.injEq, and_true]
              rcases hab with rfl | rfl
              · rfl
              · split <;> rfl

/-- An index of a shape stays where it is. -/
theorem project_of_mem_indices {s : Shape} {i : Index} (h : i ∈ s.indices) : s.project i = i := by
  induction s generalizing i with
  | nil => exact (List.mem_singleton.mp h).symm
  | cons a s ih =>
      obtain ⟨is, his, hi⟩ := List.mem_flatMap.mp h
      obtain ⟨k, hk, rfl⟩ := List.mem_map.mp hi
      rw [List.mem_range] at hk
      rw [project, ih his]
      split <;> congr 1
      omega

/-! ## Joining -/

theorem joinLength_eq_some_iff {a b c : Nat} (h : joinLength a b = some c) (d : Nat) :
    (c = 1 ∨ c = d) ↔ (a = 1 ∨ a = d) ∧ (b = 1 ∨ b = d) := by
  grind [joinLength]

theorem exists_joinLength {a b d : Nat} (ha : a = 1 ∨ a = d) (hb : b = 1 ∨ b = d) :
    ∃ c, joinLength a b = some c := by
  rw [joinLength]
  split
  · exact ⟨a, rfl⟩
  · split
    · exact ⟨b, rfl⟩
    · exact ⟨a, if_pos (by omega)⟩

theorem join_nil (s : Shape) : s.join [] = some s := by cases s <;> rfl

theorem join_cons (a b : Nat) (s t : Shape) :
    join (a :: s) (b :: t) =
      (joinLength a b).bind fun c => (s.join t).map fun u => c :: u := by
  rw [join]
  cases joinLength a b with
  | none => rfl
  | some c => cases s.join t <;> rfl

/-- The joined shape stretches just where both shapes do. -/
theorem stretchesTo_of_join {s t u : Shape} (h : s.join t = some u) (v : Shape) :
    u.StretchesTo v ↔ s.StretchesTo v ∧ t.StretchesTo v := by
  induction s generalizing t u v with
  | nil =>
      cases h
      exact (iff_of_eq (true_and _)).symm
  | cons a s ih =>
      cases t with
      | nil =>
          rw [join_nil] at h
          cases h
          exact (iff_of_eq (and_true _)).symm
      | cons b t =>
          rw [join_cons, Option.bind_eq_some_iff] at h
          obtain ⟨c, hc, h⟩ := h
          obtain ⟨w, hw, rfl⟩ := Option.map_eq_some_iff.mp h
          cases v with
          | nil => exact ⟨False.elim, fun h => h.1⟩
          | cons d v =>
              simp only [StretchesTo, joinLength_eq_some_iff hc d, ih hw v]
              exact and_and_and_comm

/-- Shapes that stretch to one and the same shape join. -/
theorem exists_join {s t v : Shape} (hs : s.StretchesTo v) (ht : t.StretchesTo v) :
    ∃ u, s.join t = some u := by
  induction s generalizing t v with
  | nil => exact ⟨t, rfl⟩
  | cons a s ih =>
      cases t with
      | nil => exact ⟨a :: s, rfl⟩
      | cons b t =>
          cases v with
          | nil => exact hs.elim
          | cons d v =>
              obtain ⟨c, hc⟩ := exists_joinLength hs.1 ht.1
              obtain ⟨u, hu⟩ := ih hs.2 ht.2
              exact ⟨c :: u, by rw [join_cons, hc, hu]; rfl⟩

theorem foldlM_join_isJoint {shapes : List Shape} {start s : Shape}
    (h : shapes.foldlM join start = some s) (t : Shape) :
    s.StretchesTo t ↔ start.StretchesTo t ∧ ∀ r ∈ shapes, r.StretchesTo t := by
  induction shapes generalizing start with
  | nil =>
      cases h
      simp
  | cons r shapes ih =>
      rw [List.foldlM_cons, Option.bind_eq_bind, Option.bind_eq_some_iff] at h
      obtain ⟨u, hu, h⟩ := h
      rw [ih h, stretchesTo_of_join hu, List.forall_mem_cons, and_assoc]

theorem exists_foldlM_join {shapes : List Shape} {start t : Shape} (hstart : start.StretchesTo t)
    (hshapes : ∀ r ∈ shapes, r.StretchesTo t) : ∃ s, shapes.foldlM join start = some s := by
  induction shapes generalizing start with
  | nil => exact ⟨start, rfl⟩
  | cons r shapes ih =>
      obtain ⟨hr, hshapes⟩ := List.forall_mem_cons.mp hshapes
      obtain ⟨u, hu⟩ := exists_join hstart hr
      obtain ⟨s, hs⟩ := ih ((stretchesTo_of_join hu t).mpr ⟨hstart, hr⟩) hshapes
      exact ⟨s, by rw [List.foldlM_cons, hu]; exact hs⟩

/-- **Joining.** What shapes join to is the least shape to which all of them stretch. -/
theorem joinAll_isJoint {shapes : List Shape} {s : Shape} (h : joinAll shapes = some s) :
    IsJoint shapes s := by
  intro t
  rw [foldlM_join_isJoint h t]
  exact iff_of_eq (true_and _)

/-- They join as soon as there is a shape to which all of them stretch. -/
theorem exists_joinAll {shapes : List Shape} (h : Joinable shapes) :
    ∃ s, joinAll shapes = some s := by
  obtain ⟨t, ht⟩ := h
  exact exists_foldlM_join trivial ht

example : joinAll [[3, 1], [1, 2, 5]] = some [3, 2, 5] ∧ joinAll [[3, 1], [2]] = none := by decide

theorem join_eq_joinAll (s t : Shape) : s.join t = joinAll [s, t] := by
  show s.join t = (s.join t).bind some
  cases s.join t <;> rfl

/-! ## Joint shapes -/

variable {shapes : List Shape} {s : Shape}

theorem IsJoint.stretchesTo (h : IsJoint shapes s) {r : Shape} (hr : r ∈ shapes) :
    r.StretchesTo s :=
  (h s).mp (.refl s) r hr

theorem IsJoint.joinable (h : IsJoint shapes s) : Joinable shapes := ⟨s, (h s).mp (.refl s)⟩

/-- There is only one least shape. -/
theorem IsJoint.unique {t : Shape} (hs : IsJoint shapes s) (ht : IsJoint shapes t) : s = t :=
  StretchesTo.antisymm ((hs t).mpr ((ht t).mp (.refl t))) ((ht s).mpr ((hs s).mp (.refl s)))

theorem isJoint_nil : IsJoint [] [] := by
  intro t
  exact iff_of_true trivial (List.forall_mem_nil _)

theorem isJoint_singleton (s : Shape) : IsJoint [s] s := by
  intro t
  rw [List.forall_mem_singleton]

/-- Joining in two steps, first the shapes of each group and then those of the groups, is joining
all shapes at once. -/
theorem forall_joints_iff {groups : List (List Shape)} {joints : List Shape}
    (hgroups : List.Forall₂ IsJoint groups joints) (t : Shape) :
    (∀ r ∈ joints, r.StretchesTo t) ↔ ∀ r ∈ groups.flatten, r.StretchesTo t := by
  induction hgroups with
  | nil => simp
  | cons hhere _ ih =>
      rw [List.forall_mem_cons, hhere t, ih, List.flatten_cons, List.forall_mem_append]

theorem Joinable.mono {more : List Shape} (h : Joinable more) (hsub : shapes ⊆ more) :
    Joinable shapes :=
  h.imp fun _ ht r hr => ht r (hsub hr)

/-- No joint shape has more dimensions than the shapes that it joins. -/
theorem IsJoint.exists_length_lt (h : IsJoint shapes s) {n : Nat} (hn : n < s.length) :
    ∃ r ∈ shapes, n < r.length := by
  rcases Classical.em (∃ r ∈ shapes, n < r.length) with hlong | hshort
  · exact hlong
  · have htake : s.StretchesTo (s.take n) := by
      refine (h _).mpr fun r hr => (h.stretchesTo hr).take ?_
      exact Nat.le_of_not_lt fun hlt => hshort ⟨r, hr, hlt⟩
    have hle := htake.length_le
    rw [List.length_take] at hle
    omega

end Shape

/-- Reading an entry through a shape that the grid stretches to. -/
theorem Grid.stretched_project {α : Type} {g : Grid α} {s : Shape} (h : g.shape.StretchesTo s)
    (i : Index) : g.stretched (s.project i) = g.stretched i := by
  rw [stretched, h.project_project, stretched]

theorem Grid.stretched_of_mem_indices {α : Type} {g : Grid α} {i : Index}
    (h : i ∈ g.shape.indices) : g.stretched i = g.entry i := by
  rw [stretched, Shape.project_of_mem_indices h]

end Formulary
