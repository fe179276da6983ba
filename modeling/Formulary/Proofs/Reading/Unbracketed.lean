import Formulary.Proofs.Reading.FlatForm
import Formulary.Proofs.Reading.Written

/-!
# Words without their brackets

A text with spaces in place of its brackets has the words of the text, in order:
brackets keep words apart just as blanks do. So the bracketed form of a formula
with the operations last and its flat form have the same words.
-/

namespace Formulary

/-- A text with a space in place of every bracket. -/
def unbracketed (text : List Char) : List Char := text.map fun c => if isBracket c then ' ' else c

def Token.word? : Token → Option (List Char)
  | .word w => some w
  | _ => none

/-- The words among some tokens. -/
def wordsOf (ts : List Token) : List (List Char) := ts.filterMap Token.word?

@[simp] theorem wordsOf_nil : wordsOf [] = [] := rfl

@[simp] theorem wordsOf_word (word : List Char) (ts : List Token) :
    wordsOf (.word word :: ts) = word :: wordsOf ts := rfl

@[simp] theorem wordsOf_opening (ts : List Token) : wordsOf (.opening :: ts) = wordsOf ts := rfl

@[simp] theorem wordsOf_closing (ts : List Token) : wordsOf (.closing :: ts) = wordsOf ts := rfl

@[simp] theorem wordsOf_append (ts us : List Token) :
    wordsOf (ts ++ us) = wordsOf ts ++ wordsOf us := List.filterMap_append

/-! ## Cutting a text -/

/-- Cutting a text behind a word gives the word first. -/
theorem words_append {word : List Char} (hne : word ≠ [])
    (hword : ∀ c ∈ word, Text.isBlank c = false) (rest : List Char)
    (hrest : ∀ c cs, rest = c :: cs → Text.isBlank c = true) :
    Text.words (word ++ rest) = word :: Text.words rest := by
  induction word with
  | nil => exact absurd rfl hne
  | cons c word ih =>
      obtain ⟨hc, hcs⟩ := List.forall_mem_cons.mp hword
      cases word with
      | nil =>
          cases rest with
          | nil => simp [Text.words, hc]
          | cons d rest => simp [Text.words, hc, hrest d rest rfl]
      | cons d word =>
          have htail := ih (List.cons_ne_nil d word) hcs
          rw [List.cons_append] at htail
          rw [List.cons_append, List.cons_append, Text.words]
          simp [hc, hcs d List.mem_cons_self, htail]

theorem unbracketed_of_isWord {word : List Char} (h : IsWord word) : unbracketed word = word := by
  have hsame : ∀ c ∈ word, (if isBracket c then ' ' else c) = c := by
    intro c hc
    have hnot := not_bracket_of_isWordChar (h.2 c hc)
    simp [isBracket, hnot.1, hnot.2]
  rw [unbracketed, List.map_congr_left hsame, List.map_id']

theorem isBlank_unbracketed {c : Char} (h : isWordChar c = false) :
    Text.isBlank (if isBracket c then ' ' else c) = true := by
  cases hbracket : isBracket c with
  | true => exact (by decide : Text.isBlank ' ' = true)
  | false =>
      rw [isWordChar, hbracket] at h
      simpa using h

theorem words_unbracketed_cons {c : Char} (h : isWordChar c = false) (cs : List Char) :
    Text.words (unbracketed (c :: cs)) = Text.words (unbracketed cs) := by
  rw [unbracketed, List.map_cons, Text.words.eq_def]
  exact if_pos (isBlank_unbracketed h)

theorem wordsOf_tokensFrom_cons {c : Char} (h : isWordChar c = false) (offset : Nat)
    (cs : List Char) : wordsOf ((tokensFrom offset (c :: cs)).map Placed.token) =
      wordsOf ((tokensFrom (offset + 1) cs).map Placed.token) := by
  cases hblank : Text.isBlank c with
  | true => rw [tokensFrom_blank hblank]
  | false =>
      have hbracket : c = '(' ∨ c = ')' := by
        simpa [isWordChar, isBracket, hblank, or_iff_not_imp_left] using h
      rcases hbracket with rfl | rfl
      · rw [tokensFrom_opening, List.map_cons, wordsOf_opening]
      · rw [tokensFrom_closing, List.map_cons, wordsOf_closing]

/-- A text that begins with a word character begins with a word. -/
theorem exists_word_append {c : Char} (h : isWordChar c = true) (cs : List Char) :
    ∃ word rest, c :: cs = word ++ rest ∧ IsWord word ∧ EndsWord rest := by
  refine ⟨(c :: cs).takeWhile isWordChar, (c :: cs).dropWhile isWordChar,
    List.takeWhile_append_dropWhile.symm, ⟨?_, ?_⟩, ?_⟩
  · rw [List.takeWhile_cons_of_pos h]
    exact List.cons_ne_nil _ _
  · exact fun d hd => List.all_eq_true.mp List.all_takeWhile d hd
  · intro d ds hd
    have hne : (c :: cs).dropWhile isWordChar ≠ [] := by simp [hd]
    simpa [hd] using List.head_dropWhile_not isWordChar hne

/-- Brackets and blanks keep words apart and are no words themselves. -/
theorem words_unbracketed (offset : Nat) (text : List Char) :
    Text.words (unbracketed text) = wordsOf ((tokensFrom offset text).map Placed.token) := by
  induction hn : text.length using Nat.strong_induction_on generalizing text offset with
  | _ n ih =>
      cases text with
      | nil => rfl
      | cons c cs =>
          cases hc : isWordChar c with
          | false =>
              rw [words_unbracketed_cons hc, wordsOf_tokensFrom_cons hc]
              exact ih cs.length (hn ▸ Nat.lt_succ_self _) (offset + 1) cs rfl
          | true =>
              -- a word character begins a longest run, and a text that ends a word is left
              obtain ⟨word, rest, hsplit, hword, hrest⟩ := exists_word_append hc cs
              have hlength : rest.length < n := by
                rw [← hn, hsplit, List.length_append]
                exact Nat.lt_add_of_pos_left (List.length_pos_iff.mpr hword.1)
              have hends : ∀ d ds, unbracketed rest = d :: ds → Text.isBlank d = true := by
                intro d ds hd
                cases rest with
                | nil => cases hd
                | cons e rest =>
                    cases hd
                    exact isBlank_unbracketed (hrest e rest rfl)
              have hspread : unbracketed (word ++ rest) = word ++ unbracketed rest := by
                rw [unbracketed, List.map_append]
                exact congrArg (· ++ _) (unbracketed_of_isWord hword)
              rw [hsplit, hspread, tokensFrom_word hword hrest,
                words_append hword.1 (fun c hc => not_blank_of_isWordChar (hword.2 c hc)) _ hends,
                ih rest.length hlength (offset + word.length) rest rfl, List.map_cons, wordsOf_word]

/-- Words with spaces between them are cut into these words. -/
theorem words_spaced {ws : List (List Char)} (h : ∀ w ∈ ws, IsWord w) :
    Text.words (Formula.spaced ws) = ws := by
  induction ws with
  | nil => rfl
  | cons w ws ih =>
      obtain ⟨hw, hws⟩ := List.forall_mem_cons.mp h
      have hblank : ∀ c ∈ w, Text.isBlank c = false :=
        fun c hc => not_blank_of_isWordChar (hw.2 c hc)
      cases ws with
      | nil =>
          have hcut := words_append hw.1 hblank [] (fun _ _ he => by cases he)
          rw [List.append_nil] at hcut
          rw [Formula.spaced_singleton, hcut]
          rfl
      | cons v ws =>
          have hspace : Text.isBlank ' ' = true := by decide
          have hskip : Text.words (' ' :: Formula.spaced (v :: ws)) = v :: ws := by
            rw [Text.words.eq_def]
            exact (if_pos hspace).trans (ih hws)
          have hcut := words_append hw.1 hblank (' ' :: Formula.spaced (v :: ws))
            (fun c cs he => by cases he; exact hspace)
          rw [Formula.spaced_cons_cons, hcut, hskip]

/-! ## The words of a written formula -/

namespace Formula

variable {r : Registry}

mutual
theorem isWord_of_mem_flatWords : (t : Formula) → t.Over r → ∀ w ∈ t.flatWords, IsWord w
  | .const value, _ => List.forall_mem_singleton.mpr (Number.isWord_constant value)
  | .var _, hname => List.forall_mem_singleton.mpr (isWord_of_mem_argumentNames hname)
  | .apply _ xs, h =>
      List.forall_mem_append.mpr
        ⟨isWord_of_mem_flatWordsAll xs h.2, List.forall_mem_singleton.mpr h.1.word⟩
theorem isWord_of_mem_flatWordsAll : (xs : List Formula) → OverAll r xs →
    ∀ w ∈ flatWordsAll xs, IsWord w
  | [], _ => by simp [flatWordsAll]
  | x :: xs, h =>
      List.forall_mem_append.mpr
        ⟨isWord_of_mem_flatWords x h.1, isWord_of_mem_flatWordsAll xs h.2⟩
end

mutual
/-- The words of the bracketed form with the operations last are those of the flat form. -/
theorem wordsOf_spelled : (t : Formula) → (offset : Nat) →
    wordsOf ((t.spelled .last offset).map Placed.token) = t.flatWords
  | .const value, offset => rfl
  | .var name, offset => rfl
  | .apply symbol xs, offset => by
      obtain ⟨start, htokens⟩ := spelled_apply .last offset symbol xs
      rw [htokens, flatWords, ← wordsOf_spelledAll xs start]
      simp [Placement.group]
theorem wordsOf_spelledAll : (xs : List Formula) → (offset : Nat) →
    wordsOf ((spelledAll .last offset xs).map Placed.token) = flatWordsAll xs
  | [], offset => rfl
  | x :: xs, offset => by
      obtain ⟨start, later, htokens⟩ := spelledAll_cons .last offset x xs
      rw [htokens, List.map_append, wordsOf_append, wordsOf_spelled x start,
        wordsOf_spelledAll xs later, flatWordsAll]
end

/-- Cutting the flat form at its blanks gives its words back. -/
theorem words_writeFlat {t : Formula} (h : t.Over r) : Text.words t.writeFlat = t.flatWords := by
  rw [writeFlat_eq_spaced, words_spaced (isWord_of_mem_flatWords t h)]

end Formula
end Formulary
