import Formulary.Reading.Bracketed

/-!
# Cursors and tokens

The reader works on characters and the grammar on tokens. What lies before a
cursor is a list of tokens: blanks do not change it, a bracket is its first
token, and so is the longest run of word characters. A cursor that does not
stand at a blank is in one of four situations, told by its first token.
-/

namespace Formulary

/-- A word as it can stand in a text. -/
def IsWord (word : List Char) : Prop := word ≠ [] ∧ ∀ c ∈ word, isWordChar c = true

theorem isWord_iff (word : List Char) :
    IsWord word ↔ (!word.isEmpty && word.all isWordChar) = true := by
  rw [IsWord, Bool.and_eq_true, List.all_eq_true]
  simp

instance (word : List Char) : Decidable (IsWord word) :=
  decidable_of_iff _ (isWord_iff word).symm

/-- A text that does not go on with the word before it. -/
def EndsWord (rest : List Char) : Prop := ∀ c cs, rest = c :: cs → isWordChar c = false

theorem endsWord_nil : EndsWord [] := by
  intro c cs h
  cases h

theorem endsWord_cons {c : Char} (h : isWordChar c = false) (cs : List Char) :
    EndsWord (c :: cs) := by
  intro c' cs' e
  cases e
  exact h

/-- Where its word characters end, a text does not go on with a word. -/
theorem endsWord_dropWhile (cs : List Char) : EndsWord (cs.dropWhile isWordChar) := by
  intro c rest h
  have hne : cs.dropWhile isWordChar ≠ [] := by simp [h]
  simpa [h] using List.head_dropWhile_not isWordChar hne

theorem not_blank_of_isWordChar {c : Char} (h : isWordChar c = true) :
    Text.isBlank c = false := by
  simp only [isWordChar, Bool.and_eq_true, Bool.not_eq_true'] at h
  exact h.1

theorem not_bracket_of_isWordChar {c : Char} (h : isWordChar c = true) :
    c ≠ '(' ∧ c ≠ ')' := by
  simp only [isWordChar, isBracket, Bool.and_eq_true, Bool.not_eq_true', Bool.or_eq_false_iff,
    beq_eq_false_iff_ne] at h
  exact h.2

/-! ## Tokens of a text -/

theorem tokensFrom_blank {c : Char} (h : Text.isBlank c = true) (offset : Nat)
    (cs : List Char) : tokensFrom offset (c :: cs) = tokensFrom (offset + 1) cs := by
  simp [tokensFrom, h]

theorem tokensFrom_opening (offset : Nat) (cs : List Char) :
    tokensFrom offset ('(' :: cs) = ⟨.opening, offset⟩ :: tokensFrom (offset + 1) cs := by
  have h : Text.isBlank '(' = false := by decide
  simp [tokensFrom, h]

theorem tokensFrom_closing (offset : Nat) (cs : List Char) :
    tokensFrom offset (')' :: cs) = ⟨.closing, offset⟩ :: tokensFrom (offset + 1) cs := by
  have h : Text.isBlank ')' = false := by decide
  simp [tokensFrom, h]

/-- A word character opens the word that follows it directly, or a word of its own. -/
theorem tokensFrom_wordChar {c : Char} (h : isWordChar c = true) (offset : Nat)
    (cs : List Char) :
    tokensFrom offset (c :: cs) =
      match tokensFrom (offset + 1) cs with
      | ⟨.word w, start⟩ :: more =>
        if start = offset + 1 then ⟨.word (c :: w), offset⟩ :: more
        else ⟨.word [c], offset⟩ :: ⟨.word w, start⟩ :: more
      | later => ⟨.word [c], offset⟩ :: later := by
  have hb := not_blank_of_isWordChar h
  have ho := not_bracket_of_isWordChar h
  rw [tokensFrom, if_neg (by simp [hb]), if_neg ho.1, if_neg ho.2]
  cases tokensFrom (offset + 1) cs with
  | nil => rfl
  | cons p more =>
      obtain ⟨token, start⟩ := p
      cases token <;> rfl

/-- What a character makes of the tokens behind it. -/
inductive Precedes (offset : Nat) (c : Char) (later : List Placed) : List Placed → Prop
  | blank : Precedes offset c later later
  | bracket {token : Token} : (∀ word, token ≠ .word word) →
      Precedes offset c later (⟨token, offset⟩ :: later)
  | begins : Precedes offset c later (⟨.word [c], offset⟩ :: later)
  | joins {word : List Char} {more : List Placed} : later = ⟨.word word, offset + 1⟩ :: more →
      Precedes offset c later (⟨.word (c :: word), offset⟩ :: more)

/-- **Step.** A blank leaves no token, a bracket is one, and any other character begins a word or
joins the word right behind it. -/
theorem precedes_tokensFrom (offset : Nat) (c : Char) (cs : List Char) :
    Precedes offset c (tokensFrom (offset + 1) cs) (tokensFrom offset (c :: cs)) := by
  rw [tokensFrom]
  split
  · exact .blank
  · split
    · exact .bracket (by simp)
    · split
      · exact .bracket (by simp)
      · split
        · next w start more hlater =>
            split
            · next hstart =>
                subst hstart
                exact .joins hlater
            · exact .begins
        · exact .begins

theorem offset_le_of_mem_tokensFrom {cs : List Char} {offset : Nat} {p : Placed}
    (h : p ∈ tokensFrom offset cs) : offset ≤ p.offset := by
  induction cs generalizing offset p with
  | nil => cases h
  | cons c cs ih =>
      have hstep := precedes_tokensFrom offset c cs
      generalize tokensFrom offset (c :: cs) = ts at h hstep
      cases hstep with
      | blank => exact Nat.le_of_succ_le (ih h)
      | bracket _ | begins =>
          rcases List.mem_cons.mp h with rfl | h
          · exact Nat.le_refl _
          · exact Nat.le_of_succ_le (ih h)
      | joins hlater =>
          rcases List.mem_cons.mp h with rfl | h
          · exact Nat.le_refl _
          · exact Nat.le_of_succ_le (ih (hlater ▸ List.mem_cons_of_mem _ h))

/-- A text that ends a word has no word at its very beginning. -/
theorem tokensFrom_of_endsWord {cs : List Char} (h : EndsWord cs) {offset start : Nat}
    {w : List Char} {more : List Placed}
    (hw : tokensFrom offset cs = ⟨.word w, start⟩ :: more) : start ≠ offset := by
  cases cs with
  | nil => cases hw
  | cons c cs =>
      have hc := h c cs rfl
      by_cases hb : Text.isBlank c = true
      · rw [tokensFrom_blank hb] at hw
        have hle := offset_le_of_mem_tokensFrom (hw ▸ List.mem_cons_self)
        simp only at hle
        omega
      · have hbracket : c = '(' ∨ c = ')' := by
          simp only [isWordChar, isBracket, Bool.and_eq_false_iff, Bool.not_eq_false',
            Bool.or_eq_true, beq_iff_eq] at hc
          exact hc.resolve_left hb
        rcases hbracket with rfl | rfl
        · rw [tokensFrom_opening] at hw
          cases hw
        · rw [tokensFrom_closing] at hw
          cases hw

/-- **Words.** A word that the text ends after is one token. -/
theorem tokensFrom_word {word : List Char} (hword : IsWord word) {rest : List Char}
    (hrest : EndsWord rest) (offset : Nat) :
    tokensFrom offset (word ++ rest) =
      ⟨.word word, offset⟩ :: tokensFrom (offset + word.length) rest := by
  obtain ⟨hne, hall⟩ := hword
  -- the first character joins the word behind it, and the last one ends there by `hrest`
  induction word generalizing offset with
  | nil => exact absurd rfl hne
  | cons c word ih =>
      have hc := hall c List.mem_cons_self
      rw [List.cons_append, tokensFrom_wordChar hc]
      cases word with
      | nil =>
          simp only [List.nil_append, List.length_singleton]
          split
          · next w start more hw => rw [if_neg (tokensFrom_of_endsWord hrest hw), hw]
          · rfl
      | cons d word =>
          rw [ih (offset + 1) (List.cons_ne_nil d word)
            (fun a ha => hall a (List.mem_cons_of_mem _ ha))]
          simp [Nat.add_assoc, Nat.add_comm 1]

/-! ## Cursors -/

namespace Cursor

/-- The tokens from the cursor on. -/
def tokens (c : Cursor) : List Placed := tokensFrom c.offset c.rest

/-- A cursor that does not stand at a blank. -/
def AtToken (c : Cursor) : Prop := ∀ ch cs, c.rest = ch :: cs → Text.isBlank ch = false

/-- A cursor moved over a part of its text. -/
def Passes (c c' : Cursor) : Prop :=
  ∃ text, c.rest = text ++ c'.rest ∧ c'.offset = c.offset + text.length

theorem Passes.trans {a b c : Cursor} (hab : a.Passes b) (hbc : b.Passes c) : a.Passes c := by
  obtain ⟨s, hs, hso⟩ := hab
  obtain ⟨t, ht, hto⟩ := hbc
  refine ⟨s ++ t, ?_, ?_⟩
  · rw [hs, ht, List.append_assoc]
  · rw [hto, hso, List.length_append, Nat.add_assoc]

theorem passes_skipWhile (p : Char → Bool) (c : Cursor) : c.Passes (c.skipWhile p) :=
  ⟨c.rest.takeWhile p, List.takeWhile_append_dropWhile.symm, rfl⟩

theorem passes_skipBlank (c : Cursor) : c.Passes c.skipBlank := passes_skipWhile _ c

theorem passes_next {c : Cursor} {ch : Char} {rest : List Char} (h : c.rest = ch :: rest) :
    c.Passes (c.next rest) :=
  ⟨[ch], h, rfl⟩

/-- The length of the whole text, as far as the cursor knows it. -/
def total (c : Cursor) : Nat := c.offset + c.rest.length

theorem Passes.total_eq {c c' : Cursor} (h : c.Passes c') : c'.total = c.total := by
  obtain ⟨text, hrest, hoffset⟩ := h
  rw [total, total, hrest, hoffset, List.length_append, Nat.add_assoc]

theorem atToken_skipBlank (c : Cursor) : c.skipBlank.AtToken := by
  intro ch cs h
  have hne : c.rest.dropWhile Text.isBlank ≠ [] := by
    simp only [skipBlank, skipWhile] at h
    simp [h]
  have hh := List.head_dropWhile_not Text.isBlank hne
  simp only [skipBlank, skipWhile] at h
  simpa [h] using hh

theorem tokens_skipBlank (c : Cursor) : c.skipBlank.tokens = c.tokens := by
  obtain ⟨offset, rest⟩ := c
  simp only [tokens, skipBlank, skipWhile]
  induction rest generalizing offset with
  | nil => rfl
  | cons ch cs ih =>
      by_cases h : Text.isBlank ch = true
      · rw [List.takeWhile_cons_of_pos h, List.dropWhile_cons_of_pos h, tokensFrom_blank h,
          ← ih (offset + 1)]
        congr 1
        simp only [List.length_cons]
        omega
      · rw [List.takeWhile_cons_of_neg h, List.dropWhile_cons_of_neg h]
        rfl

theorem tokens_of_end {c : Cursor} (h : c.rest = []) : c.tokens = [] := by
  simp [tokens, h, tokensFrom]

theorem tokens_of_opening {c : Cursor} {rest : List Char} (h : c.rest = '(' :: rest) :
    c.tokens = ⟨.opening, c.offset⟩ :: (c.next rest).tokens := by
  rw [tokens, h, tokensFrom_opening]
  rfl

theorem tokens_of_closing {c : Cursor} {rest : List Char} (h : c.rest = ')' :: rest) :
    c.tokens = ⟨.closing, c.offset⟩ :: (c.next rest).tokens := by
  rw [tokens, h, tokensFrom_closing]
  rfl

/-- The word at the cursor. -/
def word (c : Cursor) : List Char := c.rest.takeWhile isWordChar

theorem isWord_word {c : Cursor} (h : c.word ≠ []) : IsWord c.word :=
  ⟨h, fun _ hc => List.all_eq_true.mp List.all_takeWhile _ hc⟩

theorem tokens_of_word {c : Cursor} (h : c.word ≠ []) :
    c.tokens = ⟨.word c.word, c.offset⟩ :: (c.skipWhile isWordChar).tokens := by
  have happ : c.rest = c.word ++ c.rest.dropWhile isWordChar :=
    (List.takeWhile_append_dropWhile).symm
  rw [tokens, happ, tokensFrom_word (isWord_word h) (endsWord_dropWhile c.rest)]
  rfl

/-- What can stand at a cursor that is not at a blank. -/
inductive Situation (c : Cursor) : Prop
  | atEnd : c.rest = [] → Situation c
  | opening {rest : List Char} : c.rest = '(' :: rest → Situation c
  | closing {rest : List Char} : c.rest = ')' :: rest → Situation c
  | word : c.word ≠ [] → Situation c

theorem AtToken.situation {c : Cursor} (h : c.AtToken) : c.Situation := by
  cases hc : c.rest with
  | nil => exact .atEnd hc
  | cons ch cs =>
      by_cases ho : ch = '('
      · exact .opening (ho ▸ hc)
      · by_cases hcl : ch = ')'
        · exact .closing (hcl ▸ hc)
        · have hw : isWordChar ch = true := by
            simp [isWordChar, isBracket, h ch cs hc, ho, hcl]
          exact .word (by simp [Cursor.word, hc, hw])

/-! ## What the first token tells -/

/-- The tokens from the cursor on, wherever they stand. -/
def spelling (c : Cursor) : List Token := c.tokens.map Placed.token

theorem spelling_start (text : List Char) :
    (Cursor.start text).spelling = Formulary.tokens text := rfl

@[simp] theorem spelling_skipBlank (c : Cursor) : c.skipBlank.spelling = c.spelling := by
  rw [spelling, tokens_skipBlank, spelling]

theorem spelling_of_end {c : Cursor} (h : c.rest = []) : c.spelling = [] := by
  rw [spelling, tokens_of_end h, List.map_nil]

theorem spelling_of_opening {c : Cursor} {rest : List Char} (h : c.rest = '(' :: rest) :
    c.spelling = .opening :: (c.next rest).spelling := by
  rw [spelling, tokens_of_opening h]
  rfl

theorem spelling_of_closing {c : Cursor} {rest : List Char} (h : c.rest = ')' :: rest) :
    c.spelling = .closing :: (c.next rest).spelling := by
  rw [spelling, tokens_of_closing h]
  rfl

theorem spelling_of_word {c : Cursor} (h : c.word ≠ []) :
    c.spelling = .word c.word :: (c.skipWhile isWordChar).spelling := by
  rw [spelling, tokens_of_word h]
  rfl

variable {c : Cursor} {more : List Token}

/-- What the characters are is told by the first token. -/
theorem AtToken.rest_of_spelling (h : c.AtToken) :
    match c.spelling with
    | [] => c.rest = []
    | .opening :: more => ∃ rest, c.rest = '(' :: rest ∧ (c.next rest).spelling = more
    | .closing :: more => ∃ rest, c.rest = ')' :: rest ∧ (c.next rest).spelling = more
    | .word word :: more =>
      c.word = word ∧ word ≠ [] ∧ (c.skipWhile isWordChar).spelling = more := by
  cases h.situation with
  | atEnd hc =>
      rw [spelling_of_end hc]
      exact hc
  | opening hc =>
      rw [spelling_of_opening hc]
      exact ⟨_, hc, rfl⟩
  | closing hc =>
      rw [spelling_of_closing hc]
      exact ⟨_, hc, rfl⟩
  | word hc =>
      rw [spelling_of_word hc]
      exact ⟨rfl, hc, rfl⟩

theorem AtToken.rest_eq_nil (h : c.AtToken) (hs : c.spelling = []) : c.rest = [] := by
  have hrest := h.rest_of_spelling
  rwa [hs] at hrest

theorem AtToken.at_opening (h : c.AtToken) (hs : c.spelling = .opening :: more) :
    ∃ rest, c.rest = '(' :: rest ∧ (c.next rest).spelling = more := by
  have hrest := h.rest_of_spelling
  rwa [hs] at hrest

theorem AtToken.at_closing (h : c.AtToken) (hs : c.spelling = .closing :: more) :
    ∃ rest, c.rest = ')' :: rest ∧ (c.next rest).spelling = more := by
  have hrest := h.rest_of_spelling
  rwa [hs] at hrest

theorem AtToken.at_word {word : List Char} (h : c.AtToken)
    (hs : c.spelling = .word word :: more) :
    c.word = word ∧ word ≠ [] ∧ (c.skipWhile isWordChar).spelling = more := by
  have hrest := h.rest_of_spelling
  rwa [hs] at hrest

end Cursor
end Formulary
