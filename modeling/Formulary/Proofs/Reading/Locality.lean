import Formulary.Proofs.Reading.EarliestDefect

/-!
# Locality of reading

What is found at a position of a text depends on the characters there. A defect
is reported from the position on (`reported_of_readItem`). An item ends further
on, and only what was passed has a part in it: wherever the same characters
stand, the same item is read (`exists_readFrom`).
-/

namespace Formulary

/-! ## Places in a text -/

namespace Cursor

variable {text : List Char} {i : Nat} {c : Cursor}

/-- The cursor at a position of a text. -/
def place (text : List Char) (i : Nat) : Cursor := ⟨i, text.drop i⟩

theorem total_place (hi : i ≤ text.length) : (place text i).total = text.length := by
  simp only [total, place, List.length_drop]
  omega

/-- A cursor stays in its text, and what it moves over is a part of that. -/
theorem Passes.exists_place (h : (place text i).Passes c) (hi : i ≤ text.length) :
    ∃ j, i ≤ j ∧ j ≤ text.length ∧ c = place text j := by
  obtain ⟨offset, rest⟩ := c
  obtain ⟨used, hrest, rfl⟩ := h
  simp only [place] at hrest ⊢
  have hlength : (text.drop i).length = used.length + rest.length := by
    rw [hrest, List.length_append]
  rw [List.length_drop] at hlength
  refine ⟨i + used.length, Nat.le_add_right _ _, by omega, ?_⟩
  rw [← List.drop_drop, hrest, List.drop_left]

theorem rest_place_eq_cons {ch : Char} (h : text[i]? = some ch) :
    (place text i).rest = ch :: text.drop (i + 1) := by
  obtain ⟨hi, rfl⟩ := List.getElem?_eq_some_iff.mp h
  exact List.drop_eq_getElem_cons hi

theorem getElem?_of_rest_place {ch : Char} {cs : List Char} (h : (place text i).rest = ch :: cs) :
    text[i]? = some ch := by
  rw [← List.head?_drop]
  exact congrArg List.head? h

theorem rest_place_eq_nil (h : text.length ≤ i) : (place text i).rest = [] :=
  List.drop_eq_nil_of_le h

/-- A cursor where neither a word nor a group begins. -/
def AtNothing (c : Cursor) : Prop :=
  ∀ ch cs, c.rest = ch :: cs → Text.isBlank ch = true ∨ ch = ')'

/-- At a blank there is nothing. -/
theorem atToken_or_atNothing (c : Cursor) : c.AtToken ∨ c.AtNothing := by
  by_cases h : ∃ ch cs, c.rest = ch :: cs ∧ Text.isBlank ch = true
  · obtain ⟨ch, cs, hr, hb⟩ := h
    right
    intro ch' cs' hr'
    rw [← (List.cons.inj (hr.symm.trans hr')).1]
    exact .inl hb
  · left
    intro ch cs hr
    rw [Bool.eq_false_iff]
    exact fun hb => h ⟨ch, cs, hr, hb⟩

/-- What begins at a cursor, if anything does. -/
theorem nothing_or_opening_or_word (c : Cursor) :
    c.AtNothing ∨ (∃ rest, c.rest = '(' :: rest) ∨ c.word ≠ [] := by
  rcases c.atToken_or_atNothing with h | h
  · cases h.situation with
    | atEnd hr =>
        left
        intro ch cs e
        rw [hr] at e
        cases e
    | closing hr =>
        left
        intro ch cs e
        rw [hr] at e
        exact .inr (List.cons.inj e).1.symm
    | opening hr => exact .inr (.inl ⟨_, hr⟩)
    | word hw => exact .inr (.inr hw)
  · exact .inl h

theorem atNothing_place_iff :
    (place text i).AtNothing ↔ ∀ ch, text[i]? = some ch → Text.isBlank ch = true ∨ ch = ')' := by
  constructor
  · intro h ch hget
    exact h ch _ (rest_place_eq_cons hget)
  · intro h ch cs hr
    exact h ch (getElem?_of_rest_place hr)

theorem length_extract {j : Nat} (i : Nat) (hj : j ≤ text.length) :
    (text.extract i j).length = j - i := by
  rw [List.extract_eq_take_drop, List.length_take, List.length_drop]
  omega

/-- What lies between two positions. -/
theorem extract_eq {j : Nat} {used : List Char} (hij : i ≤ j) (hj : j ≤ text.length)
    (h : (place text i).rest = used ++ (place text j).rest) : text.extract i j = used := by
  have hlength := congrArg List.length h
  simp only [place, List.length_append, List.length_drop] at hlength
  have hused : j - i = used.length := by omega
  simp only [place] at h
  rw [List.extract_eq_take_drop, h, hused, List.take_left]

/-- A run of characters that satisfy `p` ends at the first that does not. -/
theorem skip_append {p : Char → Bool} {run rest : List Char} (hrun : ∀ ch ∈ run, p ch = true)
    (hrest : ∀ ch cs, rest = ch :: cs → p ch = false) :
    (run ++ rest).takeWhile p = run ∧
      ∀ o, skipWhile p ⟨o, run ++ rest⟩ = ⟨o + run.length, rest⟩ := by
  have hstop : rest.takeWhile p = [] ∧ rest.dropWhile p = rest := by
    cases rest with
    | nil => exact ⟨rfl, rfl⟩
    | cons ch cs =>
        have hch : ¬p ch = true := by simp [hrest ch cs rfl]
        exact ⟨List.takeWhile_cons_of_neg hch, List.dropWhile_cons_of_neg hch⟩
  have htake : (run ++ rest).takeWhile p = run := by
    rw [List.takeWhile_append_of_pos hrun, hstop.1, List.append_nil]
  refine ⟨htake, fun o => ?_⟩
  rw [skipWhile, htake, List.dropWhile_append_of_pos hrun, hstop.2]

theorem skipWhile_place_of_pos {p : Char → Bool} {ch : Char} (h : text[i]? = some ch)
    (hp : p ch = true) : (place text i).skipWhile p = (place text (i + 1)).skipWhile p := by
  rw [skipWhile, rest_place_eq_cons h, List.takeWhile_cons_of_pos hp, List.dropWhile_cons_of_pos hp,
    skipWhile, place, place, List.length_cons, Nat.add_assoc, Nat.add_comm 1]

theorem skipWhile_place_of_neg {p : Char → Bool} (h : ∀ ch, text[i]? = some ch → p ch = false) :
    (place text i).skipWhile p = place text i := by
  have hstop : ∀ ch cs, text.drop i = ch :: cs → p ch = false :=
    fun ch _ hr => h ch (getElem?_of_rest_place hr)
  exact (@skip_append p [] _ (by simp) hstop).2 i

end Cursor

namespace Dialect

open Cursor (place)

variable {d : Dialect} {c : Cursor}

/-! ## Where a defect is reported -/

/-- A defect that is reported from the cursor on, and not behind the text. -/
def Reported (c : Cursor) (e : ParseError) : Prop := c.offset ≤ e.offset ∧ e.offset ≤ c.total

theorem reported_self (c : Cursor) (defect : Defect) : Reported c ⟨defect, c.offset⟩ :=
  ⟨Nat.le_refl _, Nat.le_add_right _ _⟩

theorem Reported.of_passes {c' : Cursor} {e : ParseError} (h : Reported c' e) (hc : c.Passes c') :
    Reported c e := by
  refine ⟨?_, hc.total_eq ▸ h.2⟩
  obtain ⟨used, -, hoffset⟩ := hc
  exact Nat.le_trans (hoffset ▸ Nat.le_add_right _ _) h.1

theorem ne_emptyToken_of_close {items : List Item} {defect : Defect}
    (h : d.close items = .error defect) : defect ≠ .emptyToken := by
  rintro rfl
  rw [close] at h
  split at h
  · dsimp only at h
    split at h
    · cases h
    · split at h <;> cases h
  · cases h

/-- Where neither a word nor a group stands, that is the defect. -/
theorem readItem_of_nothing (h : c.AtNothing) :
    d.readItem c = .error ⟨.emptyToken, c.offset⟩ := by
  cases hr : c.rest with
  | nil => exact readItem_of_end hr
  | cons ch rest =>
      rcases h ch rest hr with hb | rfl
      · refine readItem_of_no_word ?_ ?_
        · rintro rest' e
          obtain rfl : ch = '(' := (List.cons.inj (hr.symm.trans e)).1
          exact absurd hb (by decide)
        · simp [Cursor.word, hr, isWordChar, hb]
      · exact readItem_of_closing hr

/-- The defects of an item that is asked for at a cursor. -/
def ItemDefects (d : Dialect) (c : Cursor) : Prop :=
  ∀ e, d.readItem c = .error e → Reported c e ∧ (e.defect = .emptyToken → c.AtNothing)

/-- The defects of the members of a group. Where no member begins, the group ends, so that there is
no token is none of them. -/
def MembersDefects (d : Dialect) (c : Cursor) : Prop :=
  ∀ e, d.readMembers c = .error e → Reported c e ∧ e.defect ≠ .emptyToken

theorem itemDefects_of_members
    (hmembers : ∀ rest, c.rest = '(' :: rest → d.MembersDefects (c.next rest).skipBlank) :
    d.ItemDefects c := by
  intro e h
  rcases c.nothing_or_opening_or_word with hnothing | ⟨rest, hr⟩ | hw
  · rw [readItem_of_nothing hnothing] at h
    cases h
    exact ⟨reported_self c _, fun _ => hnothing⟩
  · have hpasses : c.Passes (c.next rest).skipBlank :=
      (Cursor.passes_next hr).trans (Cursor.passes_skipBlank _)
    rw [readItem_of_opening hr] at h
    split at h
    · next e' hm =>
        cases h
        obtain ⟨hreported, hne⟩ := hmembers rest hr e hm
        exact ⟨hreported.of_passes hpasses, fun hempty => absurd hempty hne⟩
    · split at h
      · next defect hclose =>
          cases h
          have hne := ne_emptyToken_of_close hclose
          exact ⟨reported_self c _, fun hempty => absurd hempty hne⟩
      · cases h
  · rw [readItem_of_word hw] at h
    split at h
    · cases h
      exact ⟨reported_self c _, fun hempty => by cases hempty⟩
    · cases h

theorem membersDefects_of_item (hc : c.AtToken) (hitem : d.ItemDefects c)
    (hmembers : ∀ i c', d.readItem c = .ok (i, c') → d.MembersDefects c'.skipBlank) :
    d.MembersDefects c := by
  intro e h
  cases hr : c.rest with
  | nil =>
      rw [readMembers_of_end hr] at h
      cases h
      exact ⟨reported_self c _, by simp⟩
  | cons ch rest =>
      by_cases hch : ch = ')'
      · subst hch
        rw [readMembers_of_closing hr] at h
        cases h
      · rw [readMembers_of_item hr hch] at h
        split at h
        · next e' hi =>
            cases h
            obtain ⟨hreported, hempty⟩ := hitem e hi
            refine ⟨hreported, fun he => ?_⟩
            rcases hempty he ch rest hr with hb | hclosing
            · exact absurd hb (by simp [hc ch rest hr])
            · exact hch hclosing
        · next i c' hi =>
            have hpasses : c.Passes c'.skipBlank :=
              (passes_of_readItem hc hi).trans c'.passes_skipBlank
            split at h
            · next e' hm =>
                cases h
                obtain ⟨hreported, hne⟩ := hmembers i c' hi e hm
                exact ⟨hreported.of_passes hpasses, hne⟩
            · cases h

/-- **Defects.** The defect of an item is reported from the cursor on. That there is no token is a
defect of the item asked for at the cursor, and never one of something inside a group. -/
theorem reported_of_readItem {e : ParseError} (h : d.readItem c = .error e) :
    Reported c e ∧ (e.defect = .emptyToken ↔ e.offset = c.offset ∧ c.AtNothing) := by
  have hdefects : Reported c e ∧ (e.defect = .emptyToken → c.AtNothing) := by
    rcases c.atToken_or_atNothing with hc | hnothing
    · exact (descent d (fun _ _ => itemDefects_of_members)
        (fun _ hc => membersDefects_of_item hc) c hc).1 e h
    · rw [readItem_of_nothing hnothing] at h
      cases h
      exact ⟨reported_self c _, fun _ => hnothing⟩
  refine ⟨hdefects.1, ?_, ?_⟩
  · intro hempty
    have hnothing := hdefects.2 hempty
    rw [readItem_of_nothing hnothing] at h
    cases h
    exact ⟨rfl, hnothing⟩
  · rintro ⟨-, hnothing⟩
    rw [readItem_of_nothing hnothing] at h
    cases h
    rfl

theorem atToken_of_readItem {i : Item} {c' : Cursor} (h : d.readItem c = .ok (i, c')) :
    c.AtToken := by
  refine c.atToken_or_atNothing.resolve_right fun hnothing => ?_
  rw [readItem_of_nothing hnothing] at h
  cases h

/-! ## What an item is read from -/

/-- The item is read from these characters wherever they stand. If what stood behind them ended a
word, then so must what stands behind them now. -/
def ReadFrom (d : Dialect) (used behind : List Char) (i : Item) : Prop :=
  ∀ o rest, (EndsWord behind → EndsWord rest) →
    d.readItem ⟨o, used ++ rest⟩ = .ok (i, ⟨o + used.length, rest⟩)

/-- The members of a group are read from these characters wherever they stand. -/
def MembersReadFrom (d : Dialect) (used : List Char) (items : List Item) : Prop :=
  ∀ o rest, d.readMembers ⟨o, used ++ rest⟩ = .ok (items, ⟨o + used.length, rest⟩)

theorem MembersReadFrom.ne_nil {used : List Char} {items : List Item}
    (h : d.MembersReadFrom used items) : used ≠ [] := by
  rintro rfl
  have hread := h 0 []
  rw [readMembers_of_end rfl] at hread
  cases hread

/-- What a text begins with decides whether it goes on with a word. -/
theorem endsWord_append {used : List Char} (hne : used ≠ []) {a b : List Char}
    (h : EndsWord (used ++ a)) : EndsWord (used ++ b) := by
  obtain ⟨ch, cs, rfl⟩ := List.exists_cons_of_ne_nil hne
  exact endsWord_cons (h ch (cs ++ a) rfl) _

/-- The blanks before the members of a group are skipped, whatever stands behind the group. -/
theorem MembersReadFrom.behind_blank {used : List Char} {items : List Item} {c' : Cursor}
    (h : d.MembersReadFrom used items) (hrest : c.skipBlank.rest = used ++ c'.rest) :
    ∃ all, all ≠ [] ∧ c.rest = all ++ c'.rest ∧
      ∀ o rest, d.readMembers (Cursor.mk o (all ++ rest)).skipBlank =
        .ok (items, ⟨o + all.length, rest⟩) := by
  obtain ⟨ch, cs, rfl⟩ := List.exists_cons_of_ne_nil h.ne_nil
  have hch : Text.isBlank ch = false := c.atToken_skipBlank ch (cs ++ c'.rest) hrest
  refine ⟨c.rest.takeWhile Text.isBlank ++ ch :: cs, by simp, ?_, ?_⟩
  · rw [List.append_assoc, ← hrest]
    exact List.takeWhile_append_dropWhile.symm
  · intro o rest
    have hblanks : ∀ b ∈ c.rest.takeWhile Text.isBlank, Text.isBlank b = true :=
      List.all_eq_true.mp List.all_takeWhile
    have hstop : ∀ ch' cs', ch :: cs ++ rest = ch' :: cs' → Text.isBlank ch' = false := by
      intro ch' cs' e
      cases e
      exact hch
    rw [List.append_assoc, Cursor.skipBlank, (Cursor.skip_append hblanks hstop).2, h,
      List.length_append, Nat.add_assoc]

/-- **Locality.** What is read is read from what is passed, and from it alone. -/
theorem exists_readFrom {i : Item} {c' : Cursor} (h : d.readItem c = .ok (i, c')) :
    ∃ used, c.rest = used ++ c'.rest ∧ d.ReadFrom used c'.rest i := by
  refine (@reading d (fun c i c' => ∃ used, c.rest = used ++ c'.rest ∧ d.ReadFrom used c'.rest i)
    (fun c items c' => ∃ used, c.rest = used ++ c'.rest ∧ d.MembersReadFrom used items)
    ?word ?group ?none ?more c (atToken_of_readItem h)).1 i c' h
  case word =>
    intro c i hw hi
    refine ⟨c.word, List.takeWhile_append_dropWhile.symm, ?_⟩
    intro o rest hends
    have hend : EndsWord rest := hends (endsWord_dropWhile c.rest)
    obtain ⟨hword, hskip⟩ := Cursor.skip_append (Cursor.isWord_word hw).2 hend
    have hread := @readItem_of_word d ⟨o, c.word ++ rest⟩ (by rwa [Cursor.word, hword])
    rw [hread, Cursor.word, hword, hi, hskip]
  case group =>
    rintro c rest items t c' hr hclose ⟨used, hrest, hused⟩
    obtain ⟨all, -, hall, hread⟩ := hused.behind_blank hrest
    have hrest' : rest = all ++ c'.rest := hall
    refine ⟨'(' :: all, by rw [hr, hrest', List.cons_append], ?_⟩
    intro o rest' _
    have hgroup := @readItem_of_opening d ⟨o, '(' :: (all ++ rest')⟩ _ rfl
    rw [Cursor.next, hread] at hgroup
    rw [List.cons_append, hgroup]
    simp only [hclose, List.length_cons, Nat.add_assoc, Nat.add_comm 1]
  case none =>
    intro c rest hr
    refine ⟨[')'], hr, ?_⟩
    intro o rest'
    exact readMembers_of_closing rfl
  case more =>
    rintro c i c' items c'' ⟨used, hrest, hitem⟩ ⟨used', hrest', hmembers⟩
    obtain ⟨all, hne, hall, hread⟩ := hmembers.behind_blank hrest'
    refine ⟨used ++ all, by rw [hrest, hall, List.append_assoc], ?_⟩
    intro o rest
    have hfirst := hitem o (all ++ rest) fun hends => endsWord_append hne (hall ▸ hends)
    rw [List.append_assoc, readMembers_of_readItem hfirst, hread, List.length_append, Nat.add_assoc]
    rfl

/-- The cursor behind an item is further on, in the same text. -/
theorem exists_place_of_readItem {text : List Char} {n : Nat} (hn : n ≤ text.length) {i : Item}
    (h : d.readItem (place text n) = .ok (i, c)) :
    ∃ m, n < m ∧ m ≤ text.length ∧ c = place text m := by
  obtain ⟨m, hnm, hm, rfl⟩ := (passes_of_readItem (atToken_of_readItem h) h).exists_place hn
  have hlt := length_lt_of_readItem h
  simp only [place, List.length_drop] at hlt
  exact ⟨m, by omega, hm, rfl⟩

/-- **Alone.** An item is read from the characters between the positions before and behind it. -/
theorem readItem_extract {text : List Char} {n m : Nat} (hnm : n ≤ m) (hm : m ≤ text.length)
    {i : Item} (h : d.readItem (place text n) = .ok (i, place text m)) :
    d.readItem (Cursor.start (text.extract n m)) =
      .ok (i, place (text.extract n m) (m - n)) := by
  obtain ⟨used, hrest, hused⟩ := exists_readFrom h
  obtain rfl := Cursor.extract_eq hnm hm hrest
  have hlength := Cursor.length_extract n hm
  have hread := hused 0 [] fun _ => endsWord_nil
  rw [List.append_nil, hlength, Nat.zero_add] at hread
  rw [Cursor.start, hread, place, List.drop_eq_nil_of_le (Nat.le_of_eq hlength)]

end Dialect
end Formulary
