import Formulary.Proofs.Reading.Locality
import Formulary.Reading.Positional

/-!
# The reader advances

The reader with its loops spelled out finds what the reader finds (`agrees`), so
what holds of an item holds of a turn of these loops: the position moves on or
there is a defect. They end in a number of turns that is linear in what is left
of the text, and never ask for a character behind its end (`item_advances`).
-/

namespace Formulary.Positional

open Cursor (place)

variable {d : Dialect} {text : List Char} {i turns : Nat}

@[simp] theorem ok_bind {α β : Type} (a : α) (f : α → Except Halt β) :
    (Except.ok a >>= f) = f a := rfl

/-- No character is asked for behind the end. -/
theorem peek_eq (text : List Char) (i : Nat) : peek text i = .ok text[i]? := by
  rw [peek]
  split
  · next h => rw [List.getElem?_eq_none h]
  · next h => rw [charAt, List.getElem?_eq_getElem (Nat.lt_of_not_le h)]; rfl

/-- **Skipping ends.** Each turn but the last moves on by a character. -/
theorem skipWhile_eq (p : Char → Bool) (hi : i ≤ text.length) (hturns : text.length - i < turns) :
    skipWhile p text turns i = .ok ((place text i).skipWhile p).offset := by
  induction turns generalizing i with
  | zero => exact absurd hturns (Nat.not_lt_zero _)
  | succ turns ih =>
      rw [skipWhile]
      split
      · next hend =>
          rw [Cursor.skipWhile_place_of_neg (by simp [hend])]
          rfl
      · next hlt =>
          have hget : text[i]? = some text[i] := List.getElem?_eq_getElem (Nat.lt_of_not_le hlt)
          rw [charAt, hget]
          simp only [ok_bind]
          split
          · next hp => rw [ih (by omega) (by omega), Cursor.skipWhile_place_of_pos hget hp]
          · next hp =>
              rw [Cursor.skipWhile_place_of_neg (by simpa [hget] using hp)]
              rfl

/-- The position to which the characters that satisfy `p` reach. -/
theorem exists_skipWhile (p : Char → Bool) (hi : i ≤ text.length) :
    ∃ j, i ≤ j ∧ j ≤ text.length ∧ (place text i).skipWhile p = place text j ∧
      ∀ turns, text.length - i < turns → skipWhile p text turns i = .ok j := by
  obtain ⟨j, hij, hj, heq⟩ := ((place text i).passes_skipWhile p).exists_place hi
  refine ⟨j, hij, hj, heq, fun turns hturns => ?_⟩
  rw [skipWhile_eq p hi hturns, heq]
  rfl

/-- What the reader finds at a position, with positions in place of cursors. -/
def found (start : Nat) : Except ParseError (Item × Cursor) → Except Halt (Found × Nat)
  | .error e => .error (.defect e)
  | .ok (i, c) => .ok (Found.placed start i, c.offset)

/-- The members that the reader finds. -/
def collected : Except ParseError (List Item × Cursor) → Except Halt (List Item × Nat)
  | .error e => .error (.defect e)
  | .ok (items, c) => .ok (items, c.offset)

@[simp] theorem item_placed (start : Nat) (i : Item) : (Found.placed start i).item = i := by
  cases i <;> rfl

@[simp] theorem shift_placed (n start : Nat) (i : Item) :
    (Found.placed start i).shift n = Found.placed (start + n) i := by
  cases i <;> rfl

theorem item_of_opening (h : text[i]? = some '(') :
    item d text (turns + 1) i = group d text turns i := by
  rw [item, peek_eq, h, ok_bind, if_pos rfl]

/-- A word, or that there is none. -/
theorem item_of_ne_opening (h : text[i]? ≠ some '(') (hi : i ≤ text.length)
    (hturns : text.length - i < turns) :
    item d text (turns + 1) i = found i (d.readItem (place text i)) := by
  obtain ⟨stop, his, hstop, hskip, hread⟩ := exists_skipWhile isWordChar hi
  have hextract : text.extract i stop = (place text i).word := by
    refine Cursor.extract_eq his hstop ?_
    rw [← hskip]
    exact List.takeWhile_append_dropWhile.symm
  have hne : ∀ rest, (place text i).rest ≠ '(' :: rest :=
    fun rest hr => h (Cursor.getElem?_of_rest_place hr)
  rw [item, peek_eq, ok_bind, if_neg h, hread turns hturns, ok_bind]
  simp only [hextract]
  by_cases hw : (place text i).word = []
  · rw [if_pos hw, Dialect.readItem_of_no_word hne hw]
    rfl
  · rw [if_neg hw, Dialect.readItem_of_word hw]
    cases d.registry.item? (place text i).word with
    | none => rfl
    | some item =>
        simp only [found, hskip]
        rfl

/-- The reader at a position, with turns enough for the item there. -/
def AgreesAt (d : Dialect) (text : List Char) (i : Nat) : Prop :=
  ∀ turns, 3 * (text.length - i) + 2 ≤ turns →
    item d text turns i = found i (d.readItem (place text i))

/-- The reader at a position inside a group, with turns enough for the members there. -/
def MembersAgreeAt (d : Dialect) (text : List Char) (i : Nat) : Prop :=
  ∀ turns, 3 * (text.length - i) + 3 ≤ turns →
    (members d text turns i >>= behindClosing text) = collected (d.readMembers (place text i))

theorem agreesAt_of_opening (h : text[i]? = some '(')
    (hmembers : ∀ j, i < j → j ≤ text.length → MembersAgreeAt d text j) :
    AgreesAt d text i := by
  intro turns hturns
  have hi : i < text.length := (List.getElem?_eq_some_iff.mp h).1
  obtain ⟨turns, rfl⟩ : ∃ t, turns = t + 2 := ⟨turns - 2, by omega⟩
  obtain ⟨j, hij, hj, hskip, hread⟩ := exists_skipWhile Text.isBlank (Nat.succ_le_of_lt hi)
  have hinside : ((place text i).next (text.drop (i + 1))).skipBlank = place text j := hskip
  have hagree := hmembers j hij hj turns (by omega)
  rw [item_of_opening h, group, hread turns (by omega), ok_bind, hagree,
    Dialect.readItem_of_opening (Cursor.rest_place_eq_cons h), hinside]
  cases d.readMembers (place text j) with
  | error e => rfl
  | ok r =>
      simp only [collected, ok_bind]
      cases d.close r.1 <;> rfl

theorem membersAgreeAt_of_end (h : text.length ≤ i) : MembersAgreeAt d text i := by
  intro turns hturns
  obtain ⟨turns, rfl⟩ : ∃ t, turns = t + 1 := ⟨turns - 1, by omega⟩
  rw [members, peek_eq, ok_bind, if_pos (.inl (List.getElem?_eq_none h)), ok_bind, behindClosing,
    if_pos h, Dialect.readMembers_of_end (Cursor.rest_place_eq_nil h)]
  rfl

theorem membersAgreeAt_of_closing (h : text[i]? = some ')') : MembersAgreeAt d text i := by
  intro turns hturns
  obtain ⟨turns, rfl⟩ : ∃ t, turns = t + 1 := ⟨turns - 1, by omega⟩
  have hi : ¬text.length ≤ i := Nat.not_le_of_lt (List.getElem?_eq_some_iff.mp h).1
  rw [members, peek_eq, ok_bind, if_pos (.inr h), ok_bind, behindClosing, if_neg hi,
    Dialect.readMembers_of_closing (Cursor.rest_place_eq_cons h)]
  rfl

/-- What becomes of a loop at the bracket is not changed by an item before it. -/
theorem behindClosing_cons (i : Item) (loop : Except Halt (List Item × Nat)) :
    ((loop >>= fun r => .ok (i :: r.1, r.2)) >>= behindClosing text) =
      (loop >>= behindClosing text) >>= fun r => .ok (i :: r.1, r.2) := by
  cases loop with
  | error e => rfl
  | ok r =>
      simp only [ok_bind, behindClosing]
      split <;> rfl

theorem collected_cons (i : Item) (r : Except ParseError (List Item × Cursor)) :
    collected (r.map fun r => (i :: r.1, r.2)) = collected r >>= fun r => .ok (i :: r.1, r.2) := by
  cases r <;> rfl

theorem membersAgreeAt_of_item {ch : Char} (h : text[i]? = some ch) (hch : ch ≠ ')')
    (hitem : AgreesAt d text i)
    (hmembers : ∀ j, i < j → j ≤ text.length → MembersAgreeAt d text j) :
    MembersAgreeAt d text i := by
  intro turns hturns
  have hi : i ≤ text.length := Nat.le_of_lt (List.getElem?_eq_some_iff.mp h).1
  obtain ⟨turns, rfl⟩ : ∃ t, turns = t + 1 := ⟨turns - 1, by omega⟩
  have hloop : ¬(text[i]? = none ∨ text[i]? = some ')') := by simp [h, hch]
  rw [members, peek_eq, ok_bind, if_neg hloop, hitem turns (by omega)]
  cases hread : d.readItem (place text i) with
  | error e =>
      rw [Dialect.readMembers_of_item (Cursor.rest_place_eq_cons h) hch, hread]
      rfl
  | ok r =>
      obtain ⟨first, c⟩ := r
      obtain ⟨j, hij, hj, rfl⟩ := Dialect.exists_place_of_readItem hi hread
      obtain ⟨k, hjk, hk, hskip, hnext⟩ := exists_skipWhile Text.isBlank hj
      have hblank : (place text j).skipBlank = place text k := hskip
      have hlater := hmembers k (Nat.lt_of_lt_of_le hij hjk) hk turns (by omega)
      have hbehind : (place text j).offset = j := rfl
      rw [Dialect.readMembers_of_readItem hread, hblank, collected_cons, ← hlater,
        ← behindClosing_cons]
      simp only [found, ok_bind, item_placed, hbehind, hnext turns (by omega)]

/-- **Agreement.** With turns enough, the reader over positions is the reader. -/
theorem agrees (d : Dialect) (hi : i ≤ text.length) :
    AgreesAt d text i ∧ MembersAgreeAt d text i := by
  -- a member is further on than the bracket or the member before it
  induction hn : text.length - i using Nat.strongRecOn generalizing i with
  | ind n ih =>
      have hlater : ∀ j, i < j → j ≤ text.length → MembersAgreeAt d text j := by
        intro j hij hj
        exact (ih _ (by omega) hj rfl).2
      have hitem : AgreesAt d text i := by
        by_cases h : text[i]? = some '('
        · exact agreesAt_of_opening h hlater
        · intro turns hturns
          obtain ⟨turns, rfl⟩ : ∃ t, turns = t + 1 := ⟨turns - 1, by omega⟩
          exact item_of_ne_opening h hi (by omega)
      refine ⟨hitem, ?_⟩
      cases h : text[i]? with
      | none => exact membersAgreeAt_of_end (List.getElem?_eq_none_iff.mp h)
      | some ch =>
          by_cases hch : ch = ')'
          · exact membersAgreeAt_of_closing (hch ▸ h)
          · exact membersAgreeAt_of_item h hch hitem hlater

/-- The whole reader over positions is the parser. -/
theorem parse_eq (d : Dialect) (text : List Char) (hturns : 3 * text.length + 2 ≤ turns) :
    parse d text turns = (d.parseChars text).mapError .defect := by
  obtain ⟨i, -, hi, hskip, hstart⟩ := exists_skipWhile Text.isBlank (Nat.zero_le text.length)
  have hfirst : (Cursor.start text).skipBlank = place text i := hskip
  rw [parse, hstart turns (by omega), ok_bind, (agrees d hi).1 turns (by omega),
    Dialect.parseChars_eq, hfirst]
  cases hread : d.readItem (place text i) with
  | error e => rfl
  | ok r =>
      obtain ⟨item, c⟩ := r
      obtain ⟨j, hij, hj, rfl⟩ := Dialect.exists_place_of_readItem hi hread
      obtain ⟨k, hjk, hk, hskip', hstop⟩ := exists_skipWhile Text.isBlank hj
      have hblank : (place text j).skipBlank = place text k := hskip'
      have hbehind : (place text j).offset = j := rfl
      have hleft : (place text k).rest ≠ [] ↔ k < text.length := by
        rw [place, ne_eq, List.drop_eq_nil_iff, Nat.not_le]
      simp only [found, ok_bind, hbehind, hstop turns (by omega), hblank, hleft]
      split
      · rfl
      · cases item <;> rfl

/-- **The reader advances.** From any position of a text, blanks are skipped up to a position that
is not before it. One token read there is a defect, reported between the position and the end of
the text, or it ends further on; then the same token, moved, is read from the characters in between
alone. That there is no token is reported at the position itself, if neither a word nor a group
stands there, and never from inside a group. The turns that suffice are linear in what is left, and
no character is asked for behind the end. -/
theorem item_advances (d : Dialect) (text : List Char) {i turns : Nat} (hi : i ≤ text.length)
    (hturns : 3 * (text.length - i) + 2 ≤ turns) :
    (∃ j, skipWhile Text.isBlank text turns i = .ok j ∧ i ≤ j ∧ j ≤ text.length ∧
      (place text i).skipBlank = place text j) ∧
    ((∃ e, item d text turns i = .error (.defect e) ∧ d.readItem (place text i) = .error e ∧
        i ≤ e.offset ∧ e.offset ≤ text.length ∧
        (e.defect = .emptyToken ↔
          e.offset = i ∧ ∀ ch, text[i]? = some ch → Text.isBlank ch = true ∨ ch = ')')) ∨
      ∃ token j, item d text turns i = .ok (token, j) ∧
        d.readItem (place text i) = .ok (token.item, place text j) ∧
        i < j ∧ j ≤ text.length ∧ ∃ alone, token = alone.shift i ∧
          item d (text.extract i j) turns 0 = .ok (alone, j - i) ∧
          d.readItem (Cursor.start (text.extract i j)) =
            .ok (alone.item, place (text.extract i j) (j - i))) := by
  obtain ⟨j, hij, hj, hskip, hblank⟩ := exists_skipWhile Text.isBlank hi
  refine ⟨⟨j, hblank turns (by omega), hij, hj, hskip⟩, ?_⟩
  have hagree := (agrees d hi).1 turns hturns
  cases hread : d.readItem (place text i) with
  | error e =>
      rw [hread] at hagree
      obtain ⟨⟨hfrom, hto⟩, hempty⟩ := Dialect.reported_of_readItem hread
      rw [Cursor.total_place hi] at hto
      rw [Cursor.atNothing_place_iff] at hempty
      exact .inl ⟨e, hagree, rfl, hfrom, hto, hempty⟩
  | ok r =>
      obtain ⟨first, c⟩ := r
      rw [hread] at hagree
      obtain ⟨stop, hlt, hstop, rfl⟩ := Dialect.exists_place_of_readItem hi hread
      have halone := Dialect.readItem_extract (Nat.le_of_lt hlt) hstop hread
      have hlength := Cursor.length_extract i hstop
      have hagree' := (agrees d (Nat.zero_le (text.extract i stop).length)).1 turns (by omega)
      have hstart : place (text.extract i stop) 0 = Cursor.start (text.extract i stop) := rfl
      rw [hstart, halone] at hagree'
      refine .inr ⟨Found.placed i first, stop, hagree, ?_, hlt, hstop, Found.placed 0 first, ?_,
        hagree', ?_⟩
      · rw [item_placed]
      · rw [shift_placed, Nat.zero_add]
      · rw [item_placed, halone]

/-- A group between two words, without blanks: neither word has a part in it. -/
theorem item_advances_between :
    1 ≤ "x(+ y (- z x))w".toList.length ∧ 3 * ("x(+ y (- z x))w".toList.length - 1) + 2 ≤ 44 ∧
      ∃ token alone : Found, token = alone.shift 1 ∧
        item (.standard .first) "x(+ y (- z x))w".toList 44 1 = .ok (token, 14) ∧
        item (.standard .first) "(+ y (- z x))".toList 44 0 = .ok (alone, 13) := by
  refine ⟨by decide, by decide, ?_⟩
  have hstop : (item (.standard .first) "x(+ y (- z x))w".toList 44 1).toOption.map Prod.snd =
      some 14 := by
    decide +kernel
  obtain ⟨-, hread⟩ := @item_advances (.standard .first) "x(+ y (- z x))w".toList 1 44
    (by decide) (by decide)
  rcases hread with ⟨e, he, -⟩ | ⟨token, j, hitem, -, -, -, alone, hshift, halone, -⟩
  · rw [he] at hstop
    cases hstop
  · rw [hitem] at hstop
    obtain rfl : j = 14 := Option.some.inj hstop
    exact ⟨token, alone, hshift, hitem, halone⟩

end Formulary.Positional
