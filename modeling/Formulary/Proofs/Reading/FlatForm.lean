import Formulary.Formula.Writing
import Formulary.Reading.Token

/-!
# The words of the flat form

The flat form of a formula, word by word: one word for each node, an operation
behind its operands. The form is these words with a space between neighbours,
and cutting it at the blanks gives the words back.
-/

namespace Formulary

namespace Formula

mutual
/-- The words of the flat form. -/
def flatWords : Formula → List (List Char)
  | .const value => [Number.constant value]
  | .var name => [name.toList]
  | .apply symbol xs => flatWordsAll xs ++ [symbol.toList]
def flatWordsAll : List Formula → List (List Char)
  | [] => []
  | x :: xs => flatWords x ++ flatWordsAll xs
end

theorem flatWordsAll_eq_flatMap (xs : List Formula) : flatWordsAll xs = xs.flatMap flatWords := by
  induction xs with
  | nil => rfl
  | cons x xs ih => rw [flatWordsAll, ih, List.flatMap_cons]

theorem flatWords_ne_nil (t : Formula) : t.flatWords ≠ [] := by
  cases t <;> simp [flatWords]

theorem forall_flatWords_ne_nil (ts : List Formula) : ∀ ws ∈ ts.map flatWords, ws ≠ [] :=
  List.forall_mem_map.mpr fun t _ => flatWords_ne_nil t

mutual
/-- Every node has one word. -/
theorem length_flatWords : (t : Formula) → t.flatWords.length = t.size
  | .const value => rfl
  | .var name => rfl
  | .apply symbol xs => by
      rw [flatWords, size, List.length_append, length_flatWordsAll xs, Nat.add_comm]
      rfl
theorem length_flatWordsAll : (xs : List Formula) → (flatWordsAll xs).length = sizeAll xs
  | [] => rfl
  | x :: xs => by
      rw [flatWordsAll, sizeAll, List.length_append, length_flatWords x, length_flatWordsAll xs]
end

/-! ## Spaces between words -/

theorem spaced_singleton (word : List Char) : spaced [word] = word := by
  rw [spaced_cons]
  exact List.append_nil word

theorem spaced_cons_cons (first next : List Char) (words : List (List Char)) :
    spaced (first :: next :: words) = first ++ ' ' :: spaced (next :: words) := by
  rw [spaced_cons, spaced_cons]
  simp

theorem spaced_append {xs ys : List (List Char)} (hx : xs ≠ []) (hy : ys ≠ []) :
    spaced (xs ++ ys) = spaced xs ++ ' ' :: spaced ys := by
  obtain ⟨x, xs, rfl⟩ := List.exists_cons_of_ne_nil hx
  obtain ⟨y, ys, rfl⟩ := List.exists_cons_of_ne_nil hy
  rw [List.cons_append, spaced_cons, spaced_cons, spaced_cons]
  simp

/-- Spaced texts with spaces between them are their words with spaces between them. -/
theorem spaced_map_spaced {groups : List (List (List Char))} (h : ∀ ws ∈ groups, ws ≠ []) :
    spaced (groups.map spaced) = spaced groups.flatten := by
  induction groups with
  | nil => rfl
  | cons ws groups ih =>
      obtain ⟨hws, hgroups⟩ := List.forall_mem_cons.mp h
      rw [List.map_cons, List.flatten_cons]
      cases groups with
      | nil => rw [List.map_nil, spaced_singleton, List.flatten_nil, List.append_nil]
      | cons next more =>
          have hne : (next :: more).flatten ≠ [] :=
            List.append_ne_nil_of_left_ne_nil (hgroups next List.mem_cons_self) _
          rw [spaced_append hws hne, ← ih hgroups, List.map_cons, spaced_cons_cons]

mutual
/-- The flat form is its words with a space between neighbours. -/
theorem writeFlat_eq_spaced : (t : Formula) → t.writeFlat = spaced t.flatWords
  | .const value => by rw [writeFlat_const, flatWords, spaced_singleton]
  | .var name => by rw [writeFlat_var, flatWords, spaced_singleton]
  | .apply symbol xs => by
      have hgroups : xs.map writeFlat ++ [symbol.toList] =
          (xs.map flatWords ++ [[symbol.toList]]).map spaced := by
        rw [List.map_append, map_writeFlat xs, List.map_map, List.map_singleton, spaced_singleton]
      have hne : ∀ ws ∈ xs.map flatWords ++ [[symbol.toList]], ws ≠ [] :=
        List.forall_mem_append.mpr ⟨forall_flatWords_ne_nil xs, by simp⟩
      rw [writeFlat_apply, hgroups, spaced_map_spaced hne, flatWords, flatWordsAll_eq_flatMap,
        List.flatten_append, List.flatten_singleton]
      rfl
theorem map_writeFlat : (xs : List Formula) →
    xs.map writeFlat = xs.map (spaced ∘ flatWords)
  | [] => rfl
  | x :: xs => by
      rw [List.map_cons, List.map_cons, writeFlat_eq_spaced x, map_writeFlat xs]
      rfl
end

/-- Several flat forms with spaces between them. -/
theorem spaced_map_writeFlat (ts : List Formula) :
    spaced (ts.map writeFlat) = spaced (ts.flatMap flatWords) := by
  rw [map_writeFlat, ← List.map_map, spaced_map_spaced (forall_flatWords_ne_nil ts)]
  rfl

end Formula
end Formulary
