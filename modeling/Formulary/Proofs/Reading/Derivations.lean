import Formulary.Proofs.Reading.Closing
import Formulary.Proofs.Reading.Descent

/-!
# Reading and deriving

The reader against the grammar. Whatever is read at a cursor is derived by the
tokens that the cursor passed (`derives_of_readItem`), and wherever the tokens
ahead derive a formula the reader returns it (`Derives.readItem`). A group is
where the two differ in form: the grammar asks for the operation first, the
reader only after the closing bracket.
-/

namespace Formulary

variable {d : Dialect}

/-- The grammar and the reader mean the same by a word. -/
theorem wordMeans_iff {word : List Char} {i : Item} :
    WordMeans d word i ↔ d.registry.item? word = some i := by
  constructor
  · intro h
    cases h with
    | argument hname => simp [Registry.item?, leaf?, hname]
    | literal hname hvalue => simp [Registry.item?, leaf?, hname, hvalue]
    | operation hname hvalue harity => simp [Registry.item?, leaf?, hname, hvalue, harity]
  · intro h
    by_cases hname : String.ofList word ∈ argumentNames
    · have hi : Item.formula (.var (String.ofList word)) = i := by
        simpa [Registry.item?, leaf?, hname] using h
      exact hi ▸ .argument hname
    · cases hvalue : Number.literal? word with
      | some value =>
          have hi : Item.formula (.const value) = i := by
            simpa [Registry.item?, leaf?, hname, hvalue] using h
          exact hi ▸ .literal hname hvalue
      | none =>
          cases harity : d.registry.arity? (String.ofList word) with
          | none => simp [Registry.item?, leaf?, hname, hvalue, harity] at h
          | some arity =>
              have hi : Item.operator (String.ofList word) = i := by
                simpa [Registry.item?, leaf?, hname, hvalue, harity] using h
              exact hi ▸ .operation hname hvalue harity

/-- The tokens of an item: those of a formula, or the word of an operation. -/
inductive ItemDerives (d : Dialect) : List Token → Item → Prop
  | formula {tokens : List Token} {t : Formula} :
      Derives d tokens t → ItemDerives d tokens (.formula t)
  | operator {word : List Char} {symbol : String} :
      WordMeans d word (.operator symbol) → ItemDerives d [.word word] (.operator symbol)

/-- The tokens of several items, one after the other. -/
inductive ItemsDerive (d : Dialect) : List Token → List Item → Prop
  | nil : ItemsDerive d [] []
  | cons {here later : List Token} {i : Item} {items : List Item} :
      ItemDerives d here i → ItemsDerive d later items →
      ItemsDerive d (here ++ later) (i :: items)

theorem itemDerives_of_wordMeans {word : List Char} {i : Item} (h : WordMeans d word i) :
    ItemDerives d [.word word] i := by
  cases i with
  | formula t => exact .formula (.leaf h)
  | operator symbol => exact .operator h

theorem derivesAll_of_itemsDerive {tokens : List Token} {ts : List Formula}
    (h : ItemsDerive d tokens (ts.map .formula)) : DerivesAll d tokens ts := by
  induction ts generalizing tokens with
  | nil =>
      cases h
      exact .nil
  | cons t ts ih =>
      cases h with
      | cons hhere hlater =>
          cases hhere with
          | formula ht => exact .cons ht (ih hlater)

theorem ItemsDerive.split {tokens : List Token} {xs ys : List Item}
    (h : ItemsDerive d tokens (xs ++ ys)) :
    ∃ here later, tokens = here ++ later ∧ ItemsDerive d here xs ∧ ItemsDerive d later ys := by
  induction xs generalizing tokens with
  | nil => exact ⟨[], tokens, rfl, .nil, h⟩
  | cons x xs ih =>
      cases h with
      | @cons first more _ _ hx hmore =>
          obtain ⟨here, later, rfl, hxs, hys⟩ := ih hmore
          exact ⟨first ++ here, later, (List.append_assoc ..).symm, .cons hx hxs, hys⟩

/-- The items of a group that closes are derived as the grammar has it. -/
theorem derives_of_close {tokens : List Token} {items : List Item} {t : Formula}
    (hclose : d.close items = .ok t) (h : ItemsDerive d tokens items) :
    Derives d (.opening :: (tokens ++ [.closing])) t := by
  obtain ⟨symbol, arity, operands, rfl, harity, hadmits, rfl⟩ :=
    Dialect.close_eq_ok_iff.mp hclose
  have group : ∀ {word inner}, WordMeans d word (.operator symbol) → DerivesAll d inner operands →
      Derives d (d.placement.group word inner) (.apply symbol operands) :=
    fun hword hall => .group hword harity hadmits hall
  cases hp : d.placement with
  | first =>
      rw [hp, Placement.items, Item.around] at h
      cases h with
      | @cons _ later _ _ hop hrest =>
          cases hop with
          | operator hword =>
              have hg := group hword (derivesAll_of_itemsDerive hrest)
              rw [hp] at hg
              simpa [Placement.group] using hg
  | last =>
      rw [hp, Placement.items, Item.around] at h
      obtain ⟨inner, final, rfl, hall, hfinal⟩ := h.split
      cases hfinal with
      | cons hop hnil =>
          cases hnil
          cases hop with
          | operator hword =>
              have hg := group hword (derivesAll_of_itemsDerive hall)
              rw [hp] at hg
              simpa [Placement.group] using hg

/-! ## What is read is derived -/

namespace Dialect

/-- The tokens between the cursors derive the item. -/
def DerivesItem (d : Dialect) (c : Cursor) (i : Item) (c' : Cursor) : Prop :=
  ∃ ts, c.spelling = ts ++ c'.spelling ∧ ItemDerives d ts i

/-- The tokens between the cursors derive the members of a group, but for the bracket at the end. -/
def DerivesMembers (d : Dialect) (c : Cursor) (items : List Item) (c' : Cursor) : Prop :=
  ∃ ts, c.spelling = ts ++ .closing :: c'.spelling ∧ ItemsDerive d ts items

theorem derives_of_readItem {c c' : Cursor} {i : Item} (hc : c.AtToken)
    (h : d.readItem c = .ok (i, c')) : d.DerivesItem c i c' := by
  refine (@reading d d.DerivesItem d.DerivesMembers ?word ?group ?none ?more c hc).1 i c' h
  case word =>
    intro c i hw hi
    exact ⟨[.word c.word], Cursor.spelling_of_word hw,
      itemDerives_of_wordMeans (wordMeans_iff.mpr hi)⟩
  case group =>
    rintro c rest items t c' hr ht ⟨ts, hts, hall⟩
    refine ⟨.opening :: (ts ++ [.closing]), ?_, .formula (derives_of_close ht hall)⟩
    rw [Cursor.spelling_skipBlank] at hts
    rw [Cursor.spelling_of_opening hr, hts]
    simp
  case none =>
    intro c rest hr
    exact ⟨[], Cursor.spelling_of_closing hr, .nil⟩
  case more =>
    rintro c i c' items c'' ⟨here, hhere, hi⟩ ⟨later, hlater, hmore⟩
    refine ⟨here ++ later, ?_, .cons hi hmore⟩
    rw [Cursor.spelling_skipBlank] at hlater
    rw [hhere, hlater, List.append_assoc]

/-! ## What is derived is read -/

theorem readItem_of_wordMeans {c : Cursor} {word : List Char} {i : Item} {more : List Token}
    (hmeans : WordMeans d word i) (hc : c.AtToken) (hs : c.spelling = .word word :: more) :
    ∃ c', d.readItem c = .ok (i, c') ∧ c'.spelling = more := by
  obtain ⟨rfl, hne, hmore⟩ := hc.at_word hs
  refine ⟨c.skipWhile isWordChar, ?_, hmore⟩
  rw [readItem_of_word hne, wordMeans_iff.mp hmeans]

theorem readMembers_of_spelling {c : Cursor} {more : List Token} (hc : c.AtToken)
    (hs : c.spelling = .closing :: more) :
    ∃ c', d.readMembers c = .ok ([], c') ∧ c'.spelling = more := by
  obtain ⟨rest, hr, hmore⟩ := hc.at_closing hs
  exact ⟨c.next rest, readMembers_of_closing hr, hmore⟩

end Dialect

mutual
/-- Where the tokens ahead derive a formula, it is read. -/
theorem Derives.readItem {tokens : List Token} {t : Formula} (h : Derives d tokens t)
    {c : Cursor} {more : List Token} (hc : c.AtToken) (hs : c.spelling = tokens ++ more) :
    ∃ c', d.readItem c = .ok (.formula t, c') ∧ c'.spelling = more := by
  cases h with
  | leaf hmeans => exact Dialect.readItem_of_wordMeans hmeans hc hs
  | @group word symbol arity inner operands hword harity hadmits hall =>
      have hclose : d.close (d.placement.items symbol operands) = .ok (.apply symbol operands) :=
        Dialect.close_eq_ok_iff.mpr ⟨symbol, arity, operands, rfl, harity, hadmits, rfl⟩
      -- the items are the same in either placement, only the order of reading them differs
      suffices hgroup : ∃ rest c', c.rest = '(' :: rest ∧ c'.spelling = more ∧
          d.readMembers (c.next rest).skipBlank =
            .ok (d.placement.items symbol operands, c') by
        obtain ⟨rest, c', hr, hmore, hm⟩ := hgroup
        refine ⟨c', ?_, hmore⟩
        rw [Dialect.readItem_of_opening hr]
        simp only [hm, hclose]
      cases hp : d.placement with
      | first =>
          rw [hp, Placement.group, List.append_assoc, List.append_assoc] at hs
          obtain ⟨rest, hr, hnext⟩ := hc.at_opening hs
          have h₀ := (c.next rest).atToken_skipBlank
          obtain ⟨c₁, hop, h₁⟩ := Dialect.readItem_of_wordMeans hword h₀
            ((c.next rest).spelling_skipBlank.trans hnext)
          obtain ⟨c₂, hc₂, h₂, hall⟩ := hall.readMembers c₁.atToken_skipBlank
            (c₁.spelling_skipBlank.trans h₁)
          obtain ⟨c₃, hnil, h₃⟩ := Dialect.readMembers_of_spelling (d := d) hc₂ h₂
          refine ⟨rest, c₃, hr, h₃, ?_⟩
          rw [Dialect.readMembers_of_readItem hop, hall, hnil]
          simp [Except.map, Placement.items, Item.around]
      | last =>
          rw [hp, Placement.group, List.append_assoc, List.append_assoc] at hs
          obtain ⟨rest, hr, hnext⟩ := hc.at_opening hs
          obtain ⟨c₁, hc₁, h₁, hall⟩ := hall.readMembers (c.next rest).atToken_skipBlank
            ((c.next rest).spelling_skipBlank.trans hnext)
          obtain ⟨c₂, hop, h₂⟩ := Dialect.readItem_of_wordMeans hword hc₁ h₁
          obtain ⟨c₃, hnil, h₃⟩ := Dialect.readMembers_of_spelling (d := d) c₂.atToken_skipBlank
            (c₂.spelling_skipBlank.trans h₂)
          refine ⟨rest, c₃, hr, h₃, ?_⟩
          rw [hall, Dialect.readMembers_of_readItem hop, hnil]
          simp [Except.map, Placement.items, Item.around]
/-- Where the tokens ahead derive several formulas, the members read are these and those behind
them. -/
theorem DerivesAll.readMembers {tokens : List Token} {ts : List Formula}
    (h : DerivesAll d tokens ts) {c : Cursor} {more : List Token} (hc : c.AtToken)
    (hs : c.spelling = tokens ++ more) :
    ∃ c', c'.AtToken ∧ c'.spelling = more ∧
      d.readMembers c = (d.readMembers c').map fun r => (ts.map .formula ++ r.1, r.2) := by
  cases h with
  | nil => exact ⟨c, hc, hs, by cases d.readMembers c <;> rfl⟩
  | @cons here later t ts ht hts =>
      rw [List.append_assoc] at hs
      obtain ⟨c₁, hi, hlater⟩ := ht.readItem hc hs
      obtain ⟨c₂, hc₂, hmore, hm⟩ :=
        hts.readMembers c₁.atToken_skipBlank (c₁.spelling_skipBlank.trans hlater)
      refine ⟨c₂, hc₂, hmore, ?_⟩
      rw [Dialect.readMembers_of_readItem hi, hm]
      cases d.readMembers c₂ <;> rfl
end

/-! ## Whole texts -/

namespace Dialect

theorem derives_of_parseChars {text : List Char} {t : Formula} (h : d.parseChars text = .ok t) :
    Derives d (tokens text) t := by
  rw [parseChars_eq] at h
  split at h
  · cases h
  · next i c' hi =>
      split at h
      · cases h
      · next hend =>
          obtain ⟨ts, hts, hd⟩ :=
            derives_of_readItem (Cursor.start text).atToken_skipBlank hi
          have hrest : c'.spelling = [] := by
            rw [← Cursor.spelling_skipBlank]
            exact Cursor.spelling_of_end (Decidable.not_not.mp hend)
          rw [Cursor.spelling_skipBlank, Cursor.spelling_start, hrest, List.append_nil] at hts
          cases hd with
          | operator _ => cases h
          | formula hd =>
              cases h
              exact hts ▸ hd

theorem parseChars_of_derives {text : List Char} {t : Formula} (h : Derives d (tokens text) t) :
    d.parseChars text = .ok t := by
  have hs : (Cursor.start text).skipBlank.spelling = tokens text ++ [] := by
    rw [Cursor.spelling_skipBlank, Cursor.spelling_start, List.append_nil]
  obtain ⟨c', hi, hmore⟩ := h.readItem (Cursor.start text).atToken_skipBlank hs
  have hend : c'.skipBlank.rest = [] :=
    c'.atToken_skipBlank.rest_eq_nil (c'.spelling_skipBlank.trans hmore)
  rw [parseChars_eq, hi]
  simp only [hend, ne_eq, not_true_eq_false, if_false]

/-- **Grammar.** A text is read as a formula exactly when its tokens derive that formula, and they
derive no other. So the blanks between the tokens neither change what is accepted nor what it is
read as. -/
theorem parse_eq_ok_iff_derives (d : Dialect) (text : String) :
    (∀ t, d.parse text = .ok t ↔ Derives d (tokens text.toList) t) ∧
    (∀ t u, Derives d (tokens text.toList) t → Derives d (tokens text.toList) u → t = u) ∧
    ∀ other : String, tokens other.toList = tokens text.toList →
      (d.parse other).toOption = (d.parse text).toOption := by
  have accepts : ∀ (s : String) (t : Formula),
      d.parse s = .ok t ↔ Derives d (tokens s.toList) t :=
    fun s t => ⟨derives_of_parseChars, parseChars_of_derives⟩
  refine ⟨accepts text, ?_, ?_⟩
  · intro t u ht hu
    have heq : Except.ok (ε := ParseError) t = .ok u :=
      ((accepts text t).mpr ht).symm.trans ((accepts text u).mpr hu)
    exact Except.ok.inj heq
  · intro other h
    cases ho : d.parse other with
    | ok t =>
        have ht : d.parse text = .ok t := (accepts text t).mpr (h ▸ (accepts other t).mp ho)
        rw [ht]
    | error e =>
        cases ht : d.parse text with
        | error e' => rfl
        | ok t =>
            have ho' : d.parse other = .ok t :=
              (accepts other t).mpr (h.symm ▸ (accepts text t).mp ht)
            rw [ho'] at ho
            cases ho

end Dialect
end Formulary
