import Formulary.Proofs.Reading.Replay

/-!
# Operations that lack operands

An operation takes the items of the stack from a position on, counted from the bottom: the
height less its arity. If the height is less than the arity the position is below
zero and counts from the top instead, so the operation does not take all items that are
there but as many as are missing. Only if no more than half of the operands are there
does that come to the same.
-/

namespace Formulary.Flat

/-- Where the items of a list start that are taken from a position on. A position below zero counts
from the end, and stops at the front. -/
def sliceStart (length : Nat) (position : Int) : Nat :=
  (if position < 0 then position + length else position).toNat

/-- An operation takes what lies above the position. -/
theorem takeCount_eq_slice (k height : Nat) :
    takeCount (.exactly k) height = height - sliceStart height (height - k : Int) := by
  simp only [takeCount, sliceStart]
  split <;> split <;> omega

theorem takeCount_of_le {k height : Nat} (h : k ≤ height) : takeCount (.exactly k) height = k :=
  if_pos h

theorem takeCount_of_lt {k height : Nat} (h : height < k) :
    takeCount (.exactly k) height = min height (k - height) :=
  if_neg (Nat.not_le_of_lt h)

/-- When an operation takes as many of its operands as there are. -/
theorem takeCount_eq_min_iff (k height : Nat) :
    takeCount (.exactly k) height = min k height ↔ k ≤ height ∨ 2 * height ≤ k := by
  rcases Nat.lt_or_ge height k with h | h
  · rw [takeCount_of_lt h]
    omega
  · rw [takeCount_of_le h]
    omega

namespace Reduction

/-- What is on the stack, from bottom to top. -/
def items (s : Reduction) : List Formula := s.stack.reverse

/-- **Step.** An operation parts the stack in two and puts itself in the place of the upper part. -/
theorem exists_parts (s : Reduction) (symbol : String) (arity : Arity) :
    ∃ left operands, s.items = left ++ operands ∧
      (s.reduce symbol arity).items = left ++ [.apply symbol operands] ∧
      (s.reduce symbol arity).ignored = s.ignored ∧
      operands.length = takeCount arity s.items.length := by
  refine ⟨(s.stack.drop (takeCount arity s.stack.length)).reverse,
    (s.stack.take (takeCount arity s.stack.length)).reverse, ?_, ?_, rfl, ?_⟩
  · rw [items, ← List.reverse_append, List.take_append_drop]
  · rw [items, reduce, List.reverse_cons]
  · rw [items, List.length_reverse, List.length_reverse, List.length_take]
    exact Nat.min_eq_left (takeCount_le _ _)

variable {r : Registry} {word : List Char}

/-- **Operands.** Wherever in a text an operation is met, it takes what is on the stack from a
position on, oldest first, and leaves the rest untouched below it. It takes as many operands as
its arity, or with fewer on the stack as many as are missing, if there are so many. These are all
that are there if its arity is at least twice their number, as it always is for one or two
operands, and otherwise too few. -/
theorem run_operation {k : Nat} (h : r.arity? (String.ofList word) = some (.exactly k))
    (ws : List (List Char)) :
    ∃ left operands, (run r ws).items = left ++ operands ∧
      (run r (ws ++ [word])).items = left ++ [.apply (String.ofList word) operands] ∧
      (run r (ws ++ [word])).ignored = (run r ws).ignored ∧
      left.length = sliceStart (run r ws).items.length ((run r ws).items.length - k : Int) ∧
      (k ≤ (run r ws).items.length → operands.length = k) ∧
      ((run r ws).items.length < k →
        operands.length = min (run r ws).items.length (k - (run r ws).items.length)) ∧
      (operands.length = min k (run r ws).items.length ↔
        k ≤ (run r ws).items.length ∨ 2 * (run r ws).items.length ≤ k) ∧
      (k ≤ 2 → operands.length = min k (run r ws).items.length) := by
  obtain ⟨left, operands, hitems, hafter, hignored, hcount⟩ :=
    (run r ws).exists_parts (String.ofList word) (.exactly k)
  rw [run_concat, step_of_arity? h]
  have hiff := takeCount_eq_min_iff k (run r ws).items.length
  rw [← hcount] at hiff
  refine ⟨left, operands, hitems, hafter, hignored, ?_, fun hle => ?_, fun hlt => ?_, hiff, ?_⟩
  · have hslice := takeCount_eq_slice k (run r ws).items.length
    have hlength := congrArg List.length hitems
    rw [List.length_append] at hlength
    rw [← hcount] at hslice
    have hle : sliceStart (run r ws).items.length ((run r ws).items.length - k : Int) ≤
        (run r ws).items.length := by
      rw [sliceStart]
      split <;> omega
    omega
  · rw [hcount, takeCount_of_le hle]
  · rw [hcount, takeCount_of_lt hlt]
  · exact fun htwo => hiff.mpr (by omega)

/-- With three operands out of five an operation takes two. -/
theorem run_operation_threeOfFive :
    (Registry.mk [("five", .exactly 5)]).arity? (String.ofList "five".toList) =
        some (.exactly 5) ∧
      ∃ left operands, (run ⟨[("five", .exactly 5)]⟩ ["x".toList, "y".toList, "2".toList]).items =
          left ++ operands ∧
        (run ⟨[("five", .exactly 5)]⟩
            (["x".toList, "y".toList, "2".toList] ++ ["five".toList])).items =
          left ++ [.apply (String.ofList "five".toList) operands] ∧
        operands.length = 2 := by
  have harity : (Registry.mk [("five", .exactly 5)]).arity? (String.ofList "five".toList) =
      some (.exactly 5) := by decide
  obtain ⟨left, operands, hitems, hafter, -, -, -, hfew, -⟩ :=
    run_operation harity ["x".toList, "y".toList, "2".toList]
  exact ⟨harity, left, operands, hitems, hafter, hfew (by decide)⟩

/-- **Two operands of three.** An operation that takes three operands and finds two takes one: not
the smaller of its arity and what is there. -/
theorem run_operation_twoOfThree :
    (run ⟨[("if", .exactly 3)]⟩ ["x".toList, "y".toList]).items = [.var "x", .var "y"] ∧
      (run ⟨[("if", .exactly 3)]⟩ ["x".toList, "y".toList, "if".toList]).items =
        [.var "x", .apply "if" [.var "y"]] ∧
      ¬ ∃ left operands, (run ⟨[("if", .exactly 3)]⟩ ["x".toList, "y".toList]).items =
          left ++ operands ∧
        (run ⟨[("if", .exactly 3)]⟩ ["x".toList, "y".toList, "if".toList]).items =
          left ++ [.apply "if" operands] ∧
        operands.length = min 3 2 := by
  have htwo : (run ⟨[("if", .exactly 3)]⟩ ["x".toList, "y".toList, "if".toList]).items =
      [.var "x", .apply "if" [.var "y"]] := rfl
  refine ⟨rfl, htwo, ?_⟩
  rintro ⟨left, operands, -, hafter, hlength⟩
  rw [htwo] at hafter
  have hlast := congrArg List.getLast? hafter
  rw [List.getLast?_concat] at hlast
  cases hlast
  cases hlength

end Reduction
end Formulary.Flat
