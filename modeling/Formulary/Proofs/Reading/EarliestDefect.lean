import Formulary.Proofs.Reading.Closing
import Formulary.Proofs.Reading.Descent

/-!
# Descent and the single pass

The reader descends into groups, the pass keeps the open groups on a stack. The
two are related at every cursor: a pass that comes to where an item is read goes
on behind the item with its mark put down, or stops with the defect that stops
the reader (`pass_of_reading`). The tokens behind a defect play no part.
-/

namespace Formulary

namespace Progress

variable {d : Dialect} {length : Nat}

/-- A pass from `p` on, over the tokens that are left of a text of the given length. -/
def conclude (d : Dialect) (length : Nat) (p : Progress) (tokens : List Placed) :
    Except ParseError Unit :=
  match tokens.foldlM (step d) p with
  | .error e => .error e
  | .ok p' => p'.atEnd length

theorem conclude_nil (p : Progress) : conclude d length p [] = p.atEnd length := rfl

theorem conclude_cons (p : Progress) (t : Placed) (tokens : List Placed) :
    conclude d length p (t :: tokens) =
      match step d p t with
      | .error e => .error e
      | .ok p' => conclude d length p' tokens := by
  rw [conclude, List.foldlM_cons]
  cases step d p t <;> rfl

/-- The pass and the reader mean the same by a word. -/
theorem mark?_eq (d : Dialect) (word : List Char) :
    mark? d word = (d.registry.item? word).map Item.mark := by
  by_cases hname : String.ofList word ∈ argumentNames
  · simp [mark?, Registry.item?, leaf?, hname, Item.mark]
  · cases hvalue : Number.integer? word with
    | some n => simp [mark?, Registry.item?, leaf?, Number.literal?, hname, hvalue, Item.mark]
    | none =>
        cases harity : d.registry.arity? (String.ofList word) <;>
          simp [mark?, Registry.item?, leaf?, Number.literal?, hname, hvalue, harity, Item.mark]

/-! ## One equation for each first token -/

variable {c : Cursor} {gs : List OpenGroup}

theorem conclude_of_opening {rest : List Char} (h : c.rest = '(' :: rest) :
    conclude d length (.within gs) c.tokens =
      conclude d length (.within (⟨c.offset, []⟩ :: gs)) (c.next rest).tokens := by
  rw [Cursor.tokens_of_opening h, conclude_cons]
  rfl

theorem conclude_of_closing {g : OpenGroup} {rest : List Char} (h : c.rest = ')' :: rest) :
    conclude d length (.within (g :: gs)) c.tokens =
      match groupDefect? d g.marks with
      | some defect => .error ⟨defect, g.offset⟩
      | none => conclude d length (put gs .operand g.offset) (c.next rest).tokens := by
  rw [Cursor.tokens_of_closing h, conclude_cons]
  simp only [step]
  cases groupDefect? d g.marks <;> rfl

theorem conclude_of_closing_first {rest : List Char} (h : c.rest = ')' :: rest) :
    conclude d length (.within []) c.tokens = .error ⟨.emptyToken, c.offset⟩ := by
  rw [Cursor.tokens_of_closing h, conclude_cons]
  rfl

theorem conclude_of_word (h : c.word ≠ []) :
    conclude d length (.within gs) c.tokens =
      match d.registry.item? c.word with
      | none => .error ⟨.unknownToken (String.ofList c.word), c.offset⟩
      | some i => conclude d length (put gs i.mark c.offset) (c.skipWhile isWordChar).tokens := by
  rw [Cursor.tokens_of_word h, conclude_cons]
  simp only [step, mark?_eq]
  cases d.registry.item? c.word <;> rfl

end Progress

namespace Dialect

open Progress (conclude put groupDefect?)

variable {d : Dialect}

/-! ## The cursor behind an item -/

theorem passes_of_readItem {c c' : Cursor} {i : Item} (hc : c.AtToken)
    (h : d.readItem c = .ok (i, c')) : c.Passes c' := by
  refine (@reading d (fun c _ c' => c.Passes c') (fun c _ c' => c.Passes c')
    ?word ?group ?none ?more c hc).1 i c' h
  case word =>
    intro c i _ _
    exact c.passes_skipWhile isWordChar
  case group =>
    intro c rest items t c' hr _ hmembers
    have hin : (c.next rest).Passes c' := (c.next rest).passes_skipBlank.trans hmembers
    exact (Cursor.passes_next hr).trans hin
  case none =>
    intro c rest hr
    exact Cursor.passes_next hr
  case more =>
    intro c i c' items c'' hitem hmembers
    exact hitem.trans (c'.passes_skipBlank.trans hmembers)

/-! ## The simulation -/

/-- A pass that comes to the cursor with the groups `gs` open goes on behind the item that is read
there, its mark put down. It stops where the reader stops, provided that a reader which asks for an
item finds one or is the first to ask: a closing bracket inside a group ends the group instead. -/
def PassItem (d : Dialect) (c : Cursor) : Prop :=
  ∀ gs : List OpenGroup,
    (∀ i c', d.readItem c = .ok (i, c') →
      conclude d c.total (.within gs) c.tokens =
        conclude d c.total (put gs i.mark c.offset) c'.tokens) ∧
    (∀ e, d.readItem c = .error e → (gs = [] ∨ ∃ ch rest, c.rest = ch :: rest ∧ ch ≠ ')') →
      conclude d c.total (.within gs) c.tokens = .error e)

/-- A pass that comes to the cursor inside a group opened at `o`, with the marks `ms` so far, judges
the group by these and the marks of the members that are read there. -/
def PassMembers (d : Dialect) (c : Cursor) : Prop :=
  ∀ (o : Nat) (ms : List Mark) (gs : List OpenGroup),
    (∀ items c', d.readMembers c = .ok (items, c') →
      conclude d c.total (.within (⟨o, ms⟩ :: gs)) c.tokens =
        match groupDefect? d ((items.map Item.mark).reverse ++ ms) with
        | some defect => .error ⟨defect, o⟩
        | none => conclude d c.total (put gs .operand o) c'.tokens) ∧
    (∀ e, d.readMembers c = .error e →
      conclude d c.total (.within (⟨o, ms⟩ :: gs)) c.tokens = .error e)

theorem total_skipBlank (c : Cursor) : c.skipBlank.total = c.total :=
  c.passes_skipBlank.total_eq

/-- The pass over a group is the pass over its members, begun without marks. -/
theorem passItem_of_opening {c : Cursor} {rest : List Char} (hr : c.rest = '(' :: rest)
    (hmembers : d.PassMembers (c.next rest).skipBlank) : d.PassItem c := by
  have htotal : (c.next rest).skipBlank.total = c.total := by
    rw [total_skipBlank, (Cursor.passes_next hr).total_eq]
  intro gs
  obtain ⟨hok, herror⟩ := hmembers c.offset [] gs
  rw [htotal, Cursor.tokens_skipBlank] at hok herror
  rw [Progress.conclude_of_opening hr, readItem_of_opening hr]
  cases hm : d.readMembers (c.next rest).skipBlank with
  | error e' =>
      constructor
      · intro i c' h
        cases h
      · rintro e h -
        cases h
        exact herror e' hm
  | ok r =>
      obtain ⟨items, c₁⟩ := r
      rw [hok items c₁ hm, List.append_nil, groupDefect?_marks]
      dsimp only
      cases d.close items with
      | error defect =>
          constructor
          · intro i c' h
            cases h
          · rintro e h -
            cases h
            rfl
      | ok t =>
          constructor
          · intro i c' h
            cases h
            rfl
          · intro e h
            cases h

/-- The pass over several members is the pass over the first and then over the others. -/
theorem passMembers_of_item {c : Cursor} {ch : Char} {rest : List Char} (hr : c.rest = ch :: rest)
    (hch : ch ≠ ')') (hc : c.AtToken) (hitem : d.PassItem c)
    (hmembers : ∀ i c', d.readItem c = .ok (i, c') → d.PassMembers c'.skipBlank) :
    d.PassMembers c := by
  intro o ms gs
  obtain ⟨hok, herror⟩ := hitem (⟨o, ms⟩ :: gs)
  cases hi : d.readItem c with
  | error e =>
      rw [readMembers_of_item hr hch, hi]
      constructor
      · intro items c' h
        cases h
      · intro e' h
        cases h
        exact herror e hi (.inr ⟨ch, rest, hr, hch⟩)
  | ok r =>
      obtain ⟨i, c₁⟩ := r
      have hpasses : c.Passes c₁ := passes_of_readItem hc hi
      have hput : put (⟨o, ms⟩ :: gs) i.mark c.offset =
          .within (⟨o, i.mark :: ms⟩ :: gs) := rfl
      -- the members behind the first are judged with its mark on top of `ms`
      obtain ⟨hoks, herrors⟩ := hmembers i c₁ hi o (i.mark :: ms) gs
      rw [total_skipBlank, hpasses.total_eq, Cursor.tokens_skipBlank] at hoks herrors
      rw [hok i c₁ hi, hput, readMembers_of_readItem hi]
      cases hm : d.readMembers c₁.skipBlank with
      | error e =>
          constructor
          · intro items c' h
            cases h
          · intro e' h
            cases h
            exact herrors e hm
      | ok r =>
          obtain ⟨more, c₂⟩ := r
          constructor
          · intro items c' h
            cases h
            rw [hoks more c₂ hm]
            simp
          · intro e h
            cases h

theorem passItem_of_end {c : Cursor} (hr : c.rest = []) : d.PassItem c := by
  intro gs
  rw [readItem_of_end hr]
  constructor
  · intro i c' h
    cases h
  · rintro e h (rfl | ⟨ch, rest, hr', -⟩)
    · cases h
      rw [Cursor.tokens_of_end hr, Progress.conclude_nil]
      simp [Progress.atEnd, Cursor.total, hr]
    · rw [hr] at hr'
      cases hr'

theorem passItem_of_closing {c : Cursor} {rest : List Char} (hr : c.rest = ')' :: rest) :
    d.PassItem c := by
  intro gs
  rw [readItem_of_closing hr]
  constructor
  · intro i c' h
    cases h
  · rintro e h (rfl | ⟨ch, rest, hr', hch⟩)
    · cases h
      exact Progress.conclude_of_closing_first hr
    · rw [hr] at hr'
      exact absurd (List.cons.inj hr').1.symm hch

theorem passItem_of_word {c : Cursor} (hw : c.word ≠ []) : d.PassItem c := by
  intro gs
  rw [readItem_of_word hw, Progress.conclude_of_word hw]
  cases d.registry.item? c.word with
  | none =>
      constructor
      · intro i c' h
        cases h
      · rintro e h -
        cases h
        rfl
  | some j =>
      constructor
      · intro i c' h
        cases h
        rfl
      · intro e h
        cases h

theorem passMembers_of_end {c : Cursor} (hr : c.rest = []) : d.PassMembers c := by
  intro o ms gs
  rw [readMembers_of_end hr]
  constructor
  · intro items c' h
    cases h
  · intro e h
    cases h
    rw [Cursor.tokens_of_end hr, Progress.conclude_nil]
    simp [Progress.atEnd, Cursor.total, hr]

theorem passMembers_of_closing {c : Cursor} {rest : List Char} (hr : c.rest = ')' :: rest) :
    d.PassMembers c := by
  intro o ms gs
  rw [readMembers_of_closing hr, Progress.conclude_of_closing hr]
  constructor
  · intro items c' h
    cases h
    rfl
  · intro e h
    cases h

theorem pass_of_reading {c : Cursor} (hc : c.AtToken) : d.PassItem c ∧ d.PassMembers c := by
  refine descent d ?item ?members c hc
  case item =>
    intro c hc hmembers
    cases hc.situation with
    | atEnd hr => exact passItem_of_end hr
    | opening hr => exact passItem_of_opening hr (hmembers _ hr)
    | closing hr => exact passItem_of_closing hr
    | word hw => exact passItem_of_word hw
  case members =>
    intro c hc hitem hmembers
    cases hr : c.rest with
    | nil => exact passMembers_of_end hr
    | cons ch rest =>
        by_cases hch : ch = ')'
        · subst hch
          exact passMembers_of_closing hr
        · exact passMembers_of_item hr hch hc hitem hmembers

/-! ## Whole texts -/

/-- The pass stops with the reader's error, or comes to the end of a text that is read. -/
theorem check_eq (d : Dialect) (text : List Char) :
    d.check text = (d.parseChars text).map fun _ => () := by
  have hstart : d.check text =
      conclude d (Cursor.start text).skipBlank.total (.within [])
        (Cursor.start text).skipBlank.tokens := by
    have htotal : (Cursor.start text).total = text.length := Nat.zero_add _
    have htokens : (Cursor.start text).tokens = tokensFrom 0 text := rfl
    rw [total_skipBlank, Cursor.tokens_skipBlank, htotal, htokens, check, conclude]
    cases (tokensFrom 0 text).foldlM (Progress.step d) (.within []) <;> rfl
  have hc := (Cursor.start text).atToken_skipBlank
  obtain ⟨hok, herror⟩ := (pass_of_reading (d := d) hc).1 []
  rw [hstart, parseChars_eq]
  cases hi : d.readItem (Cursor.start text).skipBlank with
  | error e => exact herror e hi (.inl rfl)
  | ok r =>
      obtain ⟨i, c'⟩ := r
      rw [hok i c' hi, ← Cursor.tokens_skipBlank c']
      -- behind a whole item any token stops the pass before it is looked at
      cases c'.atToken_skipBlank.situation with
      | atEnd hr =>
          rw [Cursor.tokens_of_end hr, Progress.conclude_nil]
          cases i <;> simp [hr, put, Item.mark, Progress.atEnd, Except.map]
      | opening hr =>
          rw [Cursor.tokens_of_opening hr, Progress.conclude_cons]
          simp [hr, put, Progress.step, Except.map]
      | closing hr =>
          rw [Cursor.tokens_of_closing hr, Progress.conclude_cons]
          simp [hr, put, Progress.step, Except.map]
      | word hw =>
          have hne : c'.skipBlank.rest ≠ [] := by
            intro hr
            exact hw (by rw [Cursor.word, hr, List.takeWhile_nil])
          rw [Cursor.tokens_of_word hw, Progress.conclude_cons]
          simp [hne, put, Progress.step, Except.map]

/-- **Earliest defect.** The error that reading reports is the defect at which a single pass over the
tokens stops, and reading gives a formula exactly when the pass meets no defect. -/
theorem parse_eq_error_iff_check (d : Dialect) (text : String) :
    (∀ e, d.parse text = .error e ↔ d.check text.toList = .error e) ∧
    ((∃ t, d.parse text = .ok t) ↔ d.check text.toList = .ok ()) := by
  rw [check_eq, parse]
  cases d.parseChars text.toList with
  | error e => simp [Except.map]
  | ok t => simp [Except.map]

end Dialect
end Formulary
