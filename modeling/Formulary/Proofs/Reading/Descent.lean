import Formulary.Proofs.Reading.Tokens

/-!
# Reading by descent

The reader's two functions, one equation for each situation of the cursor. A
cursor behind an item is further on, so whatever is carried from the shorter rest
of a text to the longer holds wherever the reader gets to (`descent`), and what
is read can be followed word by word and group by group (`reading`).
-/

namespace Formulary.Dialect

variable {d : Dialect} {c : Cursor}

/-- The item at a cursor, and the cursor behind it. -/
def readItem (d : Dialect) (c : Cursor) : Except ParseError (Item × Cursor) :=
  (d.item c).map Subtype.val

/-- The items up to a closing bracket, and the cursor behind that. -/
def readMembers (d : Dialect) (c : Cursor) : Except ParseError (List Item × Cursor) :=
  (d.members c).map Subtype.val

/-! ## One equation for each situation -/

theorem readItem_of_opening {rest : List Char} (h : c.rest = '(' :: rest) :
    d.readItem c =
      match d.readMembers (c.next rest).skipBlank with
      | .error e => .error e
      | .ok (items, c') =>
        match d.close items with
        | .error defect => .error ⟨defect, c.offset⟩
        | .ok t => .ok (.formula t, c') := by
  rw [readItem, item, readMembers]
  split
  · next rest' hr =>
      obtain rfl : rest' = rest := by
        rw [h] at hr
        exact (List.cons.inj hr).2.symm
      cases d.members (c.next rest').skipBlank with
      | error e => rfl
      | ok r =>
          obtain ⟨⟨items, c'⟩, hlt⟩ := r
          simp only [Except.map]
          cases d.close items <;> rfl
  · next hr => exact absurd h (hr rest)

theorem readItem_eq_word (h : ∀ rest, c.rest ≠ '(' :: rest) :
    d.readItem c = (d.word c).map Subtype.val := by
  rw [readItem, item]
  split
  · next rest hr => exact absurd hr (h rest)
  · rfl

theorem readItem_of_word (h : c.word ≠ []) :
    d.readItem c =
      match d.registry.item? c.word with
      | none => .error ⟨.unknownToken (String.ofList c.word), c.offset⟩
      | some i => .ok (i, c.skipWhile isWordChar) := by
  have hne : ∀ rest, c.rest ≠ '(' :: rest := by
    intro rest e
    simp [Cursor.word, e, isWordChar, isBracket] at h
  rw [readItem_eq_word hne, word]
  simp only [Cursor.word] at h ⊢
  rw [dif_neg h]
  cases d.registry.item? (c.rest.takeWhile isWordChar) <;> rfl

theorem readItem_of_no_word (hne : ∀ rest, c.rest ≠ '(' :: rest) (h : c.word = []) :
    d.readItem c = .error ⟨.emptyToken, c.offset⟩ := by
  rw [readItem_eq_word hne, word]
  simp only [Cursor.word] at h ⊢
  rw [dif_pos h]
  rfl

theorem readItem_of_end (h : c.rest = []) :
    d.readItem c = .error ⟨.emptyToken, c.offset⟩ := by
  refine readItem_of_no_word ?_ ?_
  · intro rest e
    rw [h] at e
    cases e
  · rw [Cursor.word, h, List.takeWhile_nil]

theorem readItem_of_closing {rest : List Char} (h : c.rest = ')' :: rest) :
    d.readItem c = .error ⟨.emptyToken, c.offset⟩ := by
  refine readItem_of_no_word ?_ ?_
  · intro rest' e
    rw [h] at e
    cases e
  · simp [Cursor.word, h, isWordChar, isBracket]

theorem readMembers_of_end (h : c.rest = []) :
    d.readMembers c = .error ⟨.unclosedGroup, c.offset⟩ := by
  rw [readMembers, members]
  split
  · rfl
  · next hr => rw [h] at hr; cases hr
  · next hr => rw [h] at hr; cases hr

theorem readMembers_of_closing {rest : List Char} (h : c.rest = ')' :: rest) :
    d.readMembers c = .ok ([], c.next rest) := by
  rw [readMembers, members]
  split
  · next hr => rw [h] at hr; cases hr
  · next rest' hr =>
      rw [h] at hr
      cases hr
      rfl
  · next hne hr =>
      rw [h] at hr
      cases hr
      exact absurd rfl hne

theorem readMembers_of_item {ch : Char} {rest : List Char} (h : c.rest = ch :: rest)
    (hch : ch ≠ ')') :
    d.readMembers c =
      match d.readItem c with
      | .error e => .error e
      | .ok (i, c') =>
        match d.readMembers c'.skipBlank with
        | .error e => .error e
        | .ok (items, c'') => .ok (i :: items, c'') := by
  rw [readMembers, members, readItem]
  split
  · next hr => rw [h] at hr; cases hr
  · next rest' hr =>
      rw [h] at hr
      exact absurd (List.cons.inj hr).1 hch
  · cases d.item c with
    | error e => rfl
    | ok r =>
        obtain ⟨⟨i, c'⟩, hlt⟩ := r
        simp only [Except.map, readMembers]
        cases d.members c'.skipBlank <;> rfl

theorem readMembers_of_readItem {c' : Cursor} {i : Item} (h : d.readItem c = .ok (i, c')) :
    d.readMembers c = (d.readMembers c'.skipBlank).map fun r => (i :: r.1, r.2) := by
  cases hr : c.rest with
  | nil => rw [readItem_of_end hr] at h; cases h
  | cons ch rest =>
      have hch : ch ≠ ')' := by
        rintro rfl
        rw [readItem_of_closing hr] at h
        cases h
      simp only [readMembers_of_item hr hch, h]
      cases d.readMembers c'.skipBlank <;> rfl

theorem parseChars_eq (text : List Char) :
    d.parseChars text =
      match d.readItem (Cursor.start text).skipBlank with
      | .error e => .error e
      | .ok (i, c') =>
        if c'.skipBlank.rest ≠ [] then .error ⟨.textLeftOver, c'.skipBlank.offset⟩
        else match i with
          | .operator symbol =>
            .error ⟨.bareOperation symbol, (Cursor.start text).skipBlank.offset⟩
          | .formula t => .ok t := by
  rw [parseChars, readItem]
  cases d.item (Cursor.start text).skipBlank with
  | error e => rfl
  | ok r =>
      obtain ⟨⟨i, c'⟩, hlt⟩ := r
      cases i <;> rfl

/-! ## Induction on what is left of the text -/

theorem length_lt_of_readItem {i : Item} {c' : Cursor} (h : d.readItem c = .ok (i, c')) :
    c'.rest.length < c.rest.length := by
  cases hi : d.item c with
  | error e => rw [readItem, hi] at h; cases h
  | ok r =>
      rw [readItem, hi] at h
      obtain ⟨⟨i', c''⟩, hlt⟩ := r
      cases h
      exact hlt

/-- **Descent.** `Item` is to hold of a cursor where an item is read and `Members` of one where
the items of a group are. An item may use what holds of the members of its group, and the members
what holds of the first item and of the members behind it. -/
theorem descent (d : Dialect) {Item Members : Cursor → Prop}
    (item : ∀ c, c.AtToken →
      (∀ rest, c.rest = '(' :: rest → Members (c.next rest).skipBlank) → Item c)
    (members : ∀ c, c.AtToken → Item c →
      (∀ i c', d.readItem c = .ok (i, c') → Members c'.skipBlank) → Members c)
    (c : Cursor) (hc : c.AtToken) : Item c ∧ Members c := by
  -- both functions go on at a cursor with a shorter rest, inside a group or behind an item
  induction hn : c.rest.length using Nat.strongRecOn generalizing c with
  | ind n ih =>
      have shorter : ∀ c' : Cursor, c'.rest.length < n → Members c'.skipBlank := by
        intro c' hlt
        exact (ih _ (Nat.lt_of_le_of_lt c'.length_skipBlank_le hlt) _
          c'.atToken_skipBlank rfl).2
      have hitem : Item c := by
        refine item c hc fun rest hr => shorter _ ?_
        simp [Cursor.next, ← hn, hr]
      exact ⟨hitem, members c hc hitem fun i c' hi =>
        shorter c' (hn ▸ length_lt_of_readItem hi)⟩

/-- **What is read.** `Item` is to hold of an item between the cursors before and behind it, and
`Members` of the items of a group. An item is a word or a group of members that closes; the members
are none before a closing bracket, or an item and the members behind it. -/
theorem reading (d : Dialect) {Item : Cursor → Item → Cursor → Prop}
    {Members : Cursor → List Formulary.Item → Cursor → Prop}
    (word : ∀ c i, c.word ≠ [] → d.registry.item? c.word = some i →
      Item c i (c.skipWhile isWordChar))
    (group : ∀ c rest items t c', c.rest = '(' :: rest → d.close items = .ok t →
      Members (c.next rest).skipBlank items c' → Item c (.formula t) c')
    (none : ∀ c rest, c.rest = ')' :: rest → Members c [] (c.next rest))
    (more : ∀ c i c' items c'', Item c i c' → Members c'.skipBlank items c'' →
      Members c (i :: items) c'')
    {c : Cursor} (hc : c.AtToken) :
    (∀ i c', d.readItem c = .ok (i, c') → Item c i c') ∧
      ∀ items c', d.readMembers c = .ok (items, c') → Members c items c' := by
  refine @descent d (fun c => ∀ i c', d.readItem c = .ok (i, c') → Item c i c')
    (fun c => ∀ items c', d.readMembers c = .ok (items, c') → Members c items c')
    ?item ?members c hc
  case item =>
    intro c hc hmembers i c' h
    cases hc.situation with
    | atEnd hr => rw [readItem_of_end hr] at h; cases h
    | closing hr => rw [readItem_of_closing hr] at h; cases h
    | word hw =>
        rw [readItem_of_word hw] at h
        cases hi : d.registry.item? c.word with
        | none => rw [hi] at h; cases h
        | some j =>
            rw [hi] at h
            cases h
            exact word c i hw hi
    | @opening rest hr =>
        rw [readItem_of_opening hr] at h
        split at h
        · cases h
        · next items c₁ hm =>
            split at h
            · cases h
            · next t ht =>
                cases h
                exact group c rest items t c' hr ht (hmembers rest hr items c' hm)
  case members =>
    intro c hc hitem hmembers items c' h
    cases hr : c.rest with
    | nil => rw [readMembers_of_end hr] at h; cases h
    | cons ch rest =>
        by_cases hch : ch = ')'
        · subst hch
          rw [readMembers_of_closing hr] at h
          cases h
          exact none c rest hr
        · rw [readMembers_of_item hr hch] at h
          split at h
          · cases h
          · next i c₁ hi =>
              split at h
              · cases h
              · next items c₂ hm =>
                  cases h
                  exact more c i c₁ items c' (hitem i c₁ hi) (hmembers i c₁ hi items c' hm)

end Formulary.Dialect
