/-!
# Blank characters and words

A text is cut into words at its blank characters. The table below holds the
characters that separate: the spaces and line breaks of every script together
with the four information separators. Zero-width characters are not blank.
-/

namespace Formulary.Text

/-- Closed ranges of the code points that separate words, ascending and apart. -/
def blankRanges : List (Nat × Nat) :=
  [(0x09, 0x0D), (0x1C, 0x20), (0x85, 0x85), (0xA0, 0xA0), (0x1680, 0x1680),
   (0x2000, 0x200A), (0x2028, 0x2029), (0x202F, 0x202F), (0x205F, 0x205F),
   (0x3000, 0x3000)]

def inRanges (ranges : List (Nat × Nat)) (n : Nat) : Bool :=
  ranges.any fun r => decide (r.1 ≤ n) && decide (n ≤ r.2)

def isBlank (c : Char) : Bool := inRanges blankRanges c.toNat

/-- The maximal runs of characters that are not blank, in order. -/
def words : List Char → List (List Char)
  | [] => []
  | c :: cs =>
    if isBlank c then words cs
    else match cs with
      | [] => [[c]]
      | d :: _ =>
        if isBlank d then [c] :: words cs
        else match words cs with
          | [] => [[c]]
          | w :: ws => (c :: w) :: ws

/-- Cutting loses nothing but the blanks. -/
theorem flatten_words (cs : List Char) :
    (words cs).flatten = cs.filter fun c => !isBlank c := by
  fun_induction words cs with
  | case1 => rfl
  | case2 c cs h ih => simp [h, ih]
  | case3 c h => simp [h]
  | case4 c h d cs hd ih =>
      simp only [List.flatten_cons, ih]
      simp [h]
  | case5 c h d cs hd hw ih =>
      rw [hw] at ih
      simp [hd] at ih
  | case6 c h d cs hd w ws hw ih =>
      rw [hw] at ih ⊢
      simp only [List.flatten_cons] at ih ⊢
      simp [h, ← ih]

example : words " ab\tc ".toList = [['a', 'b'], ['c']] := by decide

end Formulary.Text
