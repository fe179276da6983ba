import Formulary.Number.Layout
import Formulary.Proofs.Number.Integral
import Formulary.Proofs.Reading.Tokens

/-!
# How constants are spelled

Every constant of a formula is spelled as a word. An integral one is an integer
in full. The others contain a point, or an exponent with its letter and digits,
or are one of three words for what is no finite number; none of these is a
literal, the name of an argument or the symbol of an operation.
-/

namespace Formulary.Number

open Binary64

/-- The characters that numbers are spelled with. -/
def isNumberChar (c : Char) : Bool :=
  c.isDigit || ['+', '-', '.', 'e', 'n', 'a', 'i', 'f'].contains c

/-- A text spelled with these characters. -/
def Spelled (cs : List Char) : Prop := ∀ c ∈ cs, isNumberChar c = true

theorem isNumberChar_of_isDigit {c : Char} (h : c.isDigit = true) : isNumberChar c = true := by
  rw [isNumberChar, h, Bool.true_or]

theorem isWordChar_of_isDigit {c : Char} (h : c.isDigit = true) : isWordChar c = true := by
  have hrange : 48 ≤ c.toNat ∧ c.toNat ≤ 57 := by
    rw [Char.isDigit, Bool.and_eq_true, decide_eq_true_eq, decide_eq_true_eq] at h
    exact ⟨UInt32.le_iff_toNat_le.mp h.1, UInt32.le_iff_toNat_le.mp h.2⟩
  have hblank : Text.isBlank c = false := by
    simp [Text.isBlank, Text.inRanges, Text.blankRanges]
    omega
  have hbracket : c ≠ '(' ∧ c ≠ ')' := by
    constructor
    · rintro rfl
      exact absurd h (by decide)
    · rintro rfl
      exact absurd h (by decide)
  simp [isWordChar, isBracket, hblank, hbracket]

theorem isWordChar_of_isNumberChar {c : Char} (h : isNumberChar c = true) :
    isWordChar c = true := by
  rw [isNumberChar, Bool.or_eq_true] at h
  rcases h with h | h
  · exact isWordChar_of_isDigit h
  · have hall : ['+', '-', '.', 'e', 'n', 'a', 'i', 'f'].all isWordChar = true := by decide
    exact List.all_eq_true.mp hall c (List.contains_iff_mem.mp h)

namespace Spelled

theorem append {xs ys : List Char} (hx : Spelled xs) (hy : Spelled ys) : Spelled (xs ++ ys) := by
  intro c hc
  rcases List.mem_append.mp hc with h | h
  · exact hx c h
  · exact hy c h

theorem cons {c : Char} {cs : List Char} (hc : isNumberChar c = true) (hcs : Spelled cs) :
    Spelled (c :: cs) := by
  intro c' h
  rcases List.mem_cons.mp h with rfl | h
  · exact hc
  · exact hcs c' h

theorem nil : Spelled [] := fun _ h => absurd h List.not_mem_nil

theorem zeros (n : Nat) : Spelled (List.replicate n '0') := by
  intro c hc
  rw [List.eq_of_mem_replicate hc]
  decide

theorem digits (n : Nat) : Spelled (digits n) := fun c hc =>
  isNumberChar_of_isDigit (List.all_eq_true.mp (all_isDigit_digits n) c hc)

theorem integerDigits (n : Int) : Spelled (integerDigits n) := by
  rw [Number.integerDigits]
  split
  · exact cons (by decide) (digits _)
  · exact digits _

theorem positional (d : Decimal) : Spelled d.positional := by
  rw [Decimal.positional]
  dsimp only
  split
  · exact ((digits _).append (zeros _)).append (cons (by decide) (cons (by decide) nil))
  · have hpadded := (zeros ((-d.exponent).toNat + 1 - (Number.digits d.significand).length)).append
      (digits d.significand)
    refine append (fun c hc => ?_) (cons (by decide) fun c hc => ?_)
    · exact hpadded c (List.mem_of_mem_take hc)
    · exact hpadded c (List.mem_of_mem_drop hc)

theorem pointed (d : Decimal) : Spelled d.pointed := by
  have hdigits := digits d.significand
  rw [Decimal.pointed]
  split
  · exact nil
  · next c hd => exact hd ▸ hdigits
  · next c cs hne hd =>
      rw [hd] at hdigits
      exact cons (hdigits c List.mem_cons_self)
        (cons (by decide) fun c' hc => hdigits c' (List.mem_cons_of_mem _ hc))

theorem exponentText (e : Int) : Spelled (exponentText e) := by
  rw [Number.exponentText]
  refine cons (by decide) (cons ?_ ((zeros _).append (digits _)))
  split <;> decide

end Spelled

/-! ## Doubles that are not integral -/

/-- A point, or an exponent: the letter and a digit. -/
def Fractional (cs : List Char) : Prop := '.' ∈ cs ∨ 'e' ∈ cs ∧ ∃ c ∈ cs, c.isDigit = true

/-- The words for what is no finite number. -/
def nonFiniteWords : List (List Char) := [['n', 'a', 'n'], ['i', 'n', 'f'], ['-', 'i', 'n', 'f']]

theorem Fractional.cons {cs : List Char} (h : Fractional cs) (c : Char) : Fractional (c :: cs) := by
  rcases h with h | ⟨he, d, hd, hdigit⟩
  · exact .inl (List.mem_cons_of_mem _ h)
  · exact .inr ⟨List.mem_cons_of_mem _ he, d, List.mem_cons_of_mem _ hd, hdigit⟩

theorem fractional_positional (d : Decimal) : Fractional d.positional := by
  left
  rw [Decimal.positional]
  dsimp only
  split <;> simp

theorem fractional_exponentText (cs : List Char) (e : Int) :
    Fractional (cs ++ exponentText e) := by
  obtain ⟨c, hc⟩ := List.exists_mem_of_ne_nil _ (digits_ne_nil e.natAbs)
  have hdigit := List.all_eq_true.mp (all_isDigit_digits e.natAbs) c hc
  refine .inr ⟨List.mem_append_right _ List.mem_cons_self, c, List.mem_append_right _ ?_, hdigit⟩
  exact List.mem_cons_of_mem _ (List.mem_cons_of_mem _ (List.mem_append_right _ hc))

/-- A finite double without its sign. -/
def unsignedText (p : Parts) : List Char :=
  if p.mantissa = 0 then ['0', '.', '0']
  else
    let d := fewest p
    if -4 ≤ d.lead ∧ d.lead < 16 then d.positional
    else d.pointed ++ exponentText d.lead

theorem unsignedText_shape (p : Parts) :
    Spelled (unsignedText p) ∧ Fractional (unsignedText p) := by
  rw [unsignedText]
  by_cases hzero : p.mantissa = 0
  · rw [if_pos hzero]
    exact ⟨.cons (by decide) (.cons (by decide) (.cons (by decide) .nil)), .inl (by decide)⟩
  · rw [if_neg hzero]
    dsimp only
    split
    · exact ⟨.positional _, fractional_positional _⟩
    · exact ⟨(Spelled.pointed _).append (.exponentText _), fractional_exponentText _ _⟩

theorem written_cases (x : Float) (finite : Parts → List Char) :
    written x finite ∈ nonFiniteWords ∨ written x finite = finite (parts x) ∨
      written x finite = '-' :: finite (parts x) := by
  rw [written]
  dsimp only
  split
  · exact .inl (by decide)
  · by_cases hinf : x.isInf = true
    · left
      rw [if_pos hinf]
      split <;> decide
    · right
      rw [if_neg hinf]
      split
      · exact .inr rfl
      · exact .inl rfl

/-- A double that identifies itself is spelled as one of three words, or with a point or an
exponent. -/
theorem exact_shape (x : Float) :
    Spelled (exact x) ∧ (exact x ∈ nonFiniteWords ∨ Fractional (exact x)) := by
  obtain ⟨hspelled, hfractional⟩ := unsignedText_shape (parts x)
  rcases written_cases x unsignedText with h | h | h
  · have hall : nonFiniteWords.all (fun w => w.all isNumberChar) = true := by decide
    have hspelled := List.all_eq_true.mp (List.all_eq_true.mp hall _ h)
    exact ⟨hspelled, .inl h⟩
  · have he : exact x = unsignedText (parts x) := h
    rw [he]
    exact ⟨hspelled, .inr hfractional⟩
  · have he : exact x = '-' :: unsignedText (parts x) := h
    rw [he]
    exact ⟨hspelled.cons (by decide), .inr (hfractional.cons '-')⟩

/-! ## What such a text is not -/

theorem integer?_eq_none {cs : List Char} {c : Char} (hc : c ∈ cs)
    (hdigit : c.isDigit = false) (hsign : c ≠ '+' ∧ c ≠ '-') : integer? cs = none := by
  have hmem : c ∈ (splitSign cs).2 := by
    unfold splitSign
    split
    · exact (List.mem_cons.mp hc).resolve_left hsign.1
    · exact (List.mem_cons.mp hc).resolve_left hsign.2
    · exact hc
  have hall : isDigits (splitSign cs).2 = false := by
    rw [isDigits, Bool.and_eq_false_iff]
    right
    rw [List.all_eq_false]
    exact ⟨c, hmem, by simp [hdigit]⟩
  rw [integer?]
  dsimp only
  rw [hall]
  rfl

theorem literal?_exact (x : Float) : literal? (exact x) = none := by
  have hnone : integer? (exact x) = none := by
    rcases (exact_shape x).2 with h | h | ⟨h, -⟩
    · have hall : nonFiniteWords.all (fun w => w.contains 'n') = true := by decide
      have hn : 'n' ∈ exact x := List.contains_iff_mem.mp (List.all_eq_true.mp hall _ h)
      exact integer?_eq_none hn (by decide) (by decide)
    · exact integer?_eq_none h (by decide) (by decide)
    · exact integer?_eq_none h (by decide) (by decide)
  rw [literal?, hnone, Option.map_none]

/-- Neither names nor standard symbols look like such a text. -/
theorem exact_ne {x : Float} {s : String}
    (hs : s ∈ argumentNames ++ Operation.all.map Operation.symbol) :
    exact x ≠ s.toList := by
  -- none is a word for no number, has a point, or has a digit
  have hall : (argumentNames ++ Operation.all.map Operation.symbol).all (fun s =>
      !nonFiniteWords.contains s.toList && !s.toList.contains '.' &&
        s.toList.all (fun c => !c.isDigit)) = true := by decide
  have hwords := List.all_eq_true.mp hall s hs
  simp only [Bool.and_eq_true, Bool.not_eq_true', List.all_eq_true] at hwords
  obtain ⟨⟨hnonfinite, hpoint⟩, hdigits⟩ := hwords
  intro he
  rcases (exact_shape x).2 with h | h | ⟨-, c, hc, hdigit⟩
  · rw [← he, List.contains_iff_mem.mpr h] at hnonfinite
    cases hnonfinite
  · rw [← he, List.contains_iff_mem.mpr h] at hpoint
    cases hpoint
  · rw [hdigits c (he ▸ hc)] at hdigit
    cases hdigit

/-! ## Constants as words -/

theorem isWord_exact (x : Float) : IsWord (exact x) := by
  obtain ⟨hspelled, hshape⟩ := exact_shape x
  refine ⟨?_, fun c hc => isWordChar_of_isNumberChar (hspelled c hc)⟩
  intro hnil
  rw [hnil] at hshape
  rcases hshape with h | h | ⟨h, -⟩
  · exact absurd h (by decide)
  · cases h
  · cases h

theorem isWord_integerDigits (n : Int) : IsWord (integerDigits n) := by
  refine ⟨?_, fun c hc => isWordChar_of_isNumberChar (Spelled.integerDigits n c hc)⟩
  rw [integerDigits]
  split
  · exact List.cons_ne_nil _ _
  · exact digits_ne_nil _

/-- **Constants are words.** -/
theorem isWord_constant (x : Float) : IsWord (constant x) := by
  cases h : isIntegral x with
  | true =>
      rw [constant_of_isIntegral h]
      exact isWord_integerDigits _
  | false =>
      rw [constant, if_neg (by simp [h])]
      exact isWord_exact x

/-- A word that is no literal, no name and no symbol means nothing. -/
theorem item?_eq_none {word : List Char} (hliteral : literal? word = none)
    (hne : ∀ s ∈ argumentNames ++ Operation.all.map Operation.symbol, word ≠ s.toList) :
    Registry.standard.item? word = none := by
  have hname : String.ofList word ∉ argumentNames := fun hmem =>
    hne _ (List.mem_append_left _ hmem) String.toList_ofList.symm
  have hsymbol : Operation.ofSymbol? (String.ofList word) = none := by
    rw [Operation.ofSymbol?, List.find?_eq_none]
    intro op hop hbeq
    have hmem : op.symbol ∈ Operation.all.map Operation.symbol := List.mem_map_of_mem hop
    refine hne _ (List.mem_append_right _ hmem) ?_
    rw [eq_of_beq hbeq, String.toList_ofList]
  rw [Registry.item?, leaf?]
  simp [hname, hliteral, Registry.standard_arity?, hsymbol]

/-- A constant that is not integral is spelled as a word that means nothing. -/
theorem item?_constant {x : Float} (h : isIntegral x = false) :
    Registry.standard.item? (constant x) = none := by
  rw [constant, if_neg (by simp [h])]
  exact item?_eq_none (literal?_exact x) fun s hs => exact_ne hs

/-- No word with a point in it means anything. -/
theorem item?_eq_none_of_point {word : List Char} (h : '.' ∈ word) :
    Registry.standard.item? word = none := by
  refine item?_eq_none ?_ ?_
  · rw [literal?, integer?_eq_none h (by decide) (by decide), Option.map_none]
  · rintro s hs rfl
    have hall : (argumentNames ++ Operation.all.map Operation.symbol).all
        (fun s => !s.toList.contains '.') = true := by decide
    have hpoint := List.all_eq_true.mp hall s hs
    rw [List.contains_iff_mem.mpr h] at hpoint
    cases hpoint

end Formulary.Number
