import Formulary.Proofs.Reading.FlatForm
import Formulary.Reading.Flat

/-!
# Nothing is lost on the stack

Reading a flat text moves words about without dropping one. A word that means
something becomes the last word of what is on the stack, written from bottom to
top, and any other word the last of those set aside. A step keeps this whatever
an operation finds on the stack, since what it takes and what it leaves are the
two parts of one list.
-/

namespace Formulary.Flat

/-- Whether a word means something: a registered symbol, a name or an integer literal. -/
def recognised (r : Registry) (word : List Char) : Bool :=
  (r.arity? (String.ofList word)).isSome || argumentNames.contains (String.ofList word) ||
    (Number.integer? word).isSome

/-- How a word is written once it is read: a word that is read as a literal is rewritten as the
constant that it stands for. -/
def rewritten (r : Registry) (word : List Char) : List Char :=
  if (r.arity? (String.ofList word)).isSome || argumentNames.contains (String.ofList word) then word
  else ((Number.literal? word).map Number.constant).getD word

namespace Reduction

variable {r : Registry} {word : List Char}

theorem step_of_arity? {arity : Arity} (h : r.arity? (String.ofList word) = some arity)
    (s : Reduction) : s.step r word = s.reduce (String.ofList word) arity := by
  simp only [step, h]

theorem step_of_leaf? {t : Formula} (harity : r.arity? (String.ofList word) = none)
    (hleaf : leaf? word = some t) (s : Reduction) :
    s.step r word = { s with stack := t :: s.stack } := by
  simp only [step, harity, hleaf]

theorem step_of_leaf?_eq_none (harity : r.arity? (String.ofList word) = none)
    (hleaf : leaf? word = none) (s : Reduction) :
    s.step r word = { s with ignored := String.ofList word :: s.ignored } := by
  simp only [step, harity, hleaf]

section Gathering

variable {α : Type} {f : Formula → List α}

theorem flatMap_push (s : Reduction) (t : Formula) :
    (t :: s.stack).reverse.flatMap f = s.stack.reverse.flatMap f ++ f t := by
  rw [List.reverse_cons, List.flatMap_append, List.flatMap_singleton]

/-- If a formula has what its operands have and then what its symbol adds, an operation adds as
much to the stack, whether it finds its operands there or not. -/
theorem flatMap_reduce (added : String → List α)
    (hf : ∀ symbol xs, f (.apply symbol xs) = xs.flatMap f ++ added symbol)
    (s : Reduction) (symbol : String) (arity : Arity) :
    (s.reduce symbol arity).stack.reverse.flatMap f = s.stack.reverse.flatMap f ++ added symbol := by
  have hparts : ∀ n, (s.stack.drop n).reverse ++ (s.stack.take n).reverse = s.stack.reverse := by
    intro n
    rw [← List.reverse_append, List.take_append_drop]
  simp only [reduce, List.reverse_cons, List.flatMap_append, List.flatMap_singleton, hf]
  rw [← List.append_assoc, ← List.flatMap_append, hparts]

end Gathering

/-- The words of what is on the stack, from bottom to top. -/
def words (s : Reduction) : List (List Char) := s.stack.reverse.flatMap Formula.flatWords

theorem words_push (s : Reduction) (t : Formula) :
    words { s with stack := t :: s.stack } = s.words ++ t.flatWords :=
  flatMap_push s t

/-- An operation gathers its operands and adds its own word to theirs. -/
theorem words_reduce (s : Reduction) (symbol : String) (arity : Arity) :
    (s.reduce symbol arity).words = s.words ++ [symbol.toList] := by
  refine flatMap_reduce (fun symbol => [symbol.toList]) (fun symbol xs => ?_) s symbol arity
  rw [Formula.flatWords, Formula.flatWordsAll_eq_flatMap]

/-- What a step does with a word: it is added to the words on the stack, or else set aside. -/
theorem step_conserves (s : Reduction) (word : List Char) :
    (s.step r word).words = s.words ++ (if recognised r word then [rewritten r word] else []) ∧
      (s.step r word).ignored =
        (if recognised r word then [] else [String.ofList word]) ++ s.ignored := by
  cases harity : r.arity? (String.ofList word) with
  | some arity =>
      have hrecognised : recognised r word = true := by simp [recognised, harity]
      have hrewritten : rewritten r word = word := by simp [rewritten, harity]
      rw [step_of_arity? harity, hrecognised, hrewritten, words_reduce, String.toList_ofList]
      exact ⟨rfl, rfl⟩
  | none =>
      by_cases hname : String.ofList word ∈ argumentNames
      · have hleaf : leaf? word = some (.var (String.ofList word)) := by simp [leaf?, hname]
        have hrecognised : recognised r word = true := by simp [recognised, hname]
        have hrewritten : rewritten r word = word := by simp [rewritten, hname]
        rw [step_of_leaf? harity hleaf, hrecognised, hrewritten, words_push, Formula.flatWords,
          String.toList_ofList]
        exact ⟨rfl, rfl⟩
      · have hleaf : leaf? word = (Number.literal? word).map .const := by simp [leaf?, hname]
        cases hinteger : Number.integer? word with
        | none =>
            have hrecognised : recognised r word = false := by
              simp [recognised, harity, hname, hinteger]
            rw [Number.literal?, hinteger] at hleaf
            rw [step_of_leaf?_eq_none harity hleaf, hrecognised]
            exact ⟨(List.append_nil _).symm, rfl⟩
        | some n =>
            have hrecognised : recognised r word = true := by simp [recognised, hinteger]
            rw [Number.literal?, hinteger] at hleaf
            have hrewritten : rewritten r word =
                Number.constant (Binary64.ofRatio n.1 n.2 1) := by
              simp [rewritten, harity, hname, Number.literal?, hinteger]
            rw [step_of_leaf? harity hleaf, hrecognised, hrewritten, words_push]
            exact ⟨rfl, rfl⟩

/-- **Run.** Every word that means something is on the stack, in order, and every other word is set
aside, in order. -/
theorem run_conserves (ws : List (List Char)) :
    (run r ws).words = (ws.filter (recognised r)).map (rewritten r) ∧
      (run r ws).ignored.reverse = (ws.filter fun w => !recognised r w).map String.ofList := by
  have h : ∀ s : Reduction,
      (ws.foldl (step r) s).words = s.words ++ (ws.filter (recognised r)).map (rewritten r) ∧
        (ws.foldl (step r) s).ignored.reverse =
          s.ignored.reverse ++ (ws.filter fun w => !recognised r w).map String.ofList := by
    induction ws with
    | nil => exact fun s => ⟨(List.append_nil _).symm, (List.append_nil _).symm⟩
    | cons w ws ih =>
        intro s
        obtain ⟨hwords, hignored⟩ := ih (s.step r w)
        obtain ⟨hw, hi⟩ := step_conserves s w
        rw [List.foldl_cons, hwords, hignored, hw, hi]
        cases hr : recognised r w <;> simp [hr]
  exact h empty

/-- The sizes of what is on the stack add up to the number of its words. -/
theorem sizeAll_stack (s : Reduction) : Formula.sizeAll s.stack = s.words.length := by
  have hall : Formula.sizeAll s.stack = (s.stack.map Formula.size).sum := by
    induction s.stack with
    | nil => rfl
    | cons t ts ih => rw [Formula.sizeAll, ih, List.map_cons, List.sum_cons]
  rw [hall, words, List.length_flatMap]
  simp only [Formula.length_flatWords]
  rw [List.map_reverse, List.sum_reverse]

end Reduction

/-- **Conservation.** However many operands are missing or left over, what is on the stack at the
end, written from bottom to top, is the words that mean something, in order, the literals among them
rewritten; the other words are set aside, in order. So the sizes on the stack add up to the number of
words that mean something, and nothing is read only if there are none. -/
theorem parse_conserves (r : Registry) (text : String) :
    (∀ word, recognised r word = true ↔ (∃ arity, r.arity? (String.ofList word) = some arity) ∨
      String.ofList word ∈ argumentNames ∨ ∃ n, Number.integer? word = some n) ∧
    (parse r text).ignored =
      ((Text.words text.toList).filter fun w => !recognised r w).map String.ofList ∧
    Formula.spaced ((Reduction.run r (Text.words text.toList)).stack.reverse.map Formula.writeFlat) =
      Formula.spaced (((Text.words text.toList).filter (recognised r)).map (rewritten r)) ∧
    Formula.sizeAll (Reduction.run r (Text.words text.toList)).stack =
      ((Text.words text.toList).filter (recognised r)).length ∧
    ((parse r text).formula? = none ↔ (Text.words text.toList).filter (recognised r) = []) := by
  obtain ⟨hwords, hignored⟩ := Reduction.run_conserves (Text.words text.toList)
  have hsize : Formula.sizeAll (Reduction.run r (Text.words text.toList)).stack =
      ((Text.words text.toList).filter (recognised r)).length := by
    rw [Reduction.sizeAll_stack, hwords, List.length_map]
  refine ⟨?_, hignored, ?_, hsize, ?_⟩
  · intro word
    simp [recognised, Option.isSome_iff_exists, or_assoc]
  · rw [Formula.spaced_map_writeFlat, ← hwords]
    rfl
  · have hempty : (Text.words text.toList).filter (recognised r) = [] ↔
        Formula.sizeAll (Reduction.run r (Text.words text.toList)).stack = 0 := by
      rw [hsize, List.length_eq_zero_iff]
    rw [hempty, parse, List.getLast?_eq_none_iff]
    cases (Reduction.run r (Text.words text.toList)).stack with
    | nil => exact iff_of_true rfl rfl
    | cons t ts => simp [Formula.sizeAll, Formula.size_eq]

end Formulary.Flat
