import Formulary.Proofs.Reading.Derivations
import Formulary.Proofs.Reading.Unbracketed
import Formulary.Reading.Reversal

/-!
# The two bracketed notations mirror each other

The reader goes through a text in one direction, so its runs over a text and over
the text backwards have no steps in common. The grammar has no direction: the
tokens of a group, reversed and with its brackets exchanged, are those of a group
of the other notation (`Placement.mirrored_group`). What is left is that a text
made of tokens is cut into these tokens again (`tokens_spaced`).
-/

namespace Formulary

/-! ## Texts made of tokens -/

namespace Token

/-- A token that a text can hold. -/
def Stands : Token → Prop
  | .word text => IsWord text
  | _ => True

theorem turned_turned (t : Token) : t.turned.turned = t := by
  cases t <;> rfl

theorem Stands.turned {t : Token} (h : t.Stands) : t.turned.Stands := by
  cases t with
  | word text => exact h
  | opening | closing => trivial

end Token

theorem stands_of_mem_tokensFrom (offset : Nat) (text : List Char) :
    ∀ p ∈ tokensFrom offset text, p.token.Stands := by
  induction hn : text.length using Nat.strong_induction_on generalizing text offset with
  | _ n ih =>
      cases text with
      | nil => exact List.forall_mem_nil _
      | cons c cs =>
          have hlater := ih cs.length (hn ▸ Nat.lt_succ_self _) (offset + 1) cs rfl
          cases hc : isWordChar c with
          | true =>
              obtain ⟨word, rest, hsplit, hword, hrest⟩ := exists_word_append hc cs
              have hlength : rest.length < n := by
                rw [← hn, hsplit, List.length_append]
                exact Nat.lt_add_of_pos_left (List.length_pos_iff.mpr hword.1)
              rw [hsplit, tokensFrom_word hword hrest]
              exact List.forall_mem_cons.mpr ⟨hword, ih rest.length hlength _ rest rfl⟩
          | false =>
              cases hblank : Text.isBlank c with
              | true => rwa [tokensFrom_blank hblank]
              | false =>
                  have hbracket : c = '(' ∨ c = ')' := by
                    simpa [isWordChar, isBracket, hblank, or_iff_not_imp_left] using hc
                  rcases hbracket with rfl | rfl
                  · rw [tokensFrom_opening]
                    exact List.forall_mem_cons.mpr ⟨trivial, hlater⟩
                  · rw [tokensFrom_closing]
                    exact List.forall_mem_cons.mpr ⟨trivial, hlater⟩

theorem stands_of_mem_tokens {text : List Char} : ∀ t ∈ tokens text, t.Stands :=
  List.forall_mem_map.mpr (stands_of_mem_tokensFrom 0 text)

/-- The characters of a token are cut off as this token. -/
theorem tokensFrom_text {t : Token} (ht : t.Stands) {rest : List Char} (hrest : EndsWord rest)
    (offset : Nat) :
    tokensFrom offset (t.text ++ rest) = ⟨t, offset⟩ :: tokensFrom (offset + t.text.length) rest := by
  cases t with
  | opening => exact tokensFrom_opening offset rest
  | closing => exact tokensFrom_closing offset rest
  | word text => exact tokensFrom_word ht hrest offset

/-- Tokens with spaces between them are cut into these tokens. -/
theorem tokens_spaced {ts : List Token} (h : ∀ t ∈ ts, t.Stands) :
    tokens (Formula.spaced (ts.map Token.text)) = ts := by
  suffices hcut : ∀ offset,
      (tokensFrom offset (Formula.spaced (ts.map Token.text))).map Placed.token = ts from hcut 0
  induction ts with
  | nil => exact fun offset => rfl
  | cons t ts ih =>
      obtain ⟨ht, hts⟩ := List.forall_mem_cons.mp h
      intro offset
      cases ts with
      | nil =>
          have hcut := tokensFrom_text ht endsWord_nil offset
          rw [List.append_nil] at hcut
          rw [List.map_singleton, Formula.spaced_singleton, hcut]
          rfl
      | cons u ts =>
          have hmore := ih hts (offset + t.text.length + 1)
          rw [List.map_cons] at hmore
          rw [List.map_cons, List.map_cons, Formula.spaced_cons_cons,
            tokensFrom_text ht (Formula.endsWord_space _), Formula.tokensFrom_space, List.map_cons,
            hmore]

/-- Tokens met from the other end. -/
def mirrored (ts : List Token) : List Token := ts.reverse.map Token.turned

theorem mirrored_append (ts us : List Token) : mirrored (ts ++ us) = mirrored us ++ mirrored ts := by
  rw [mirrored, List.reverse_append, List.map_append]
  rfl

theorem mirrored_mirrored (ts : List Token) : mirrored (mirrored ts) = ts := by
  rw [mirrored, mirrored, ← List.map_reverse, List.reverse_reverse, List.map_map]
  exact (List.map_congr_left fun t _ => t.turned_turned).trans (List.map_id _)

theorem tokens_backwards (text : List Char) : tokens (backwards text) = mirrored (tokens text) := by
  have hstands : ∀ t ∈ mirrored (tokens text), t.Stands := by
    refine List.forall_mem_map.mpr fun t ht => Token.Stands.turned ?_
    exact stands_of_mem_tokens t (List.mem_reverse.mp ht)
  have htexts : backwards text = Formula.spaced ((mirrored (tokens text)).map Token.text) := by
    rw [backwards, mirrored, List.map_map]
    rfl
  rw [htexts, tokens_spaced hstands]

/-! ## The grammar backwards -/

theorem Placement.opposite_opposite (p : Placement) : p.opposite.opposite = p := by
  cases p <;> rfl

/-- A group backwards is a group of the other notation. -/
theorem Placement.mirrored_group (p : Placement) (word : List Char) (operands : List Token) :
    mirrored (p.group word operands) = p.opposite.group word (mirrored operands) := by
  cases p <;> simp [group, opposite, mirrored, Token.turned]

namespace Formula

mutual
theorem reversed_reversed : (t : Formula) → t.reversed.reversed = t
  | .const _ => rfl
  | .var _ => rfl
  | .apply symbol xs => congrArg (apply symbol) (reversedAll_reversedAll xs)
theorem reversedAll_reversedAll : (xs : List Formula) → reversedAll (reversedAll xs) = xs
  | [] => rfl
  | x :: xs => by
      have hmore := reversedAll_reversedAll xs
      rw [reversedAll_eq (reversedAll xs)] at hmore
      rw [reversedAll, reversedAll_eq, List.map_append, List.reverse_append, hmore,
        List.map_singleton, reversed_reversed x]
      rfl
end

theorem length_reversedAll (xs : List Formula) : (reversedAll xs).length = xs.length := by
  rw [reversedAll_eq, List.length_reverse, List.length_map]

end Formula

namespace Dialect

/-- The other notation with the same operations. -/
def opposite (d : Dialect) : Dialect := ⟨d.placement.opposite, d.registry⟩

theorem opposite_opposite (d : Dialect) : d.opposite.opposite = d := by
  rw [opposite, opposite, Placement.opposite_opposite]

end Dialect

variable {d : Dialect}

/-- What a word means does not depend on where an operation stands. -/
theorem WordMeans.opposite {word : List Char} {i : Item} (h : WordMeans d word i) :
    WordMeans d.opposite word i := by
  have hitem : d.registry.item? word = some i := wordMeans_iff.mp h
  exact wordMeans_iff.mpr hitem

theorem reversed_of_wordMeans {word : List Char} {t : Formula}
    (h : WordMeans d word (.formula t)) : t.reversed = t := by
  cases h with
  | argument _ => rfl
  | literal _ _ => rfl

theorem DerivesAll.concat {tokens here : List Token} {ts : List Formula} {t : Formula}
    (hts : DerivesAll d tokens ts) (ht : Derives d here t) :
    DerivesAll d (tokens ++ here) (ts ++ [t]) := by
  induction ts generalizing tokens with
  | nil =>
      cases hts
      simpa using DerivesAll.cons ht .nil
  | cons u ts ih =>
      cases hts with
      | cons hu hmore =>
          rw [List.append_assoc]
          exact .cons hu (ih hmore)

mutual
/-- **Mirror.** Backwards, the tokens of a formula are those of the reversed formula in the other
notation. -/
theorem Derives.mirrored {tokens : List Token} {t : Formula} (h : Derives d tokens t) :
    Derives d.opposite (Formulary.mirrored tokens) t.reversed := by
  cases h with
  | leaf hmeans =>
      rw [reversed_of_wordMeans hmeans]
      exact .leaf hmeans.opposite
  | @group word symbol arity inner operands hword harity hadmits hall =>
      rw [Placement.mirrored_group]
      refine .group hword.opposite harity ?_ hall.mirrored
      rwa [Formula.length_reversedAll]
theorem DerivesAll.mirrored {tokens : List Token} {ts : List Formula} (h : DerivesAll d tokens ts) :
    DerivesAll d.opposite (Formulary.mirrored tokens) (Formula.reversedAll ts) := by
  cases h with
  | nil => exact .nil
  | cons ht hts =>
      rw [mirrored_append]
      exact hts.mirrored.concat ht.mirrored
end

/-! ## Whole texts -/

namespace Dialect

/-- Nothing is accepted backwards in the other notation but what the text itself spells. -/
theorem parse_backwards_eq_ok_iff (d : Dialect) (text : String) (u : Formula) :
    d.opposite.parse (String.ofList (backwards text.toList)) = .ok u ↔
      ∃ t, d.parse text = .ok t ∧ t.reversed = u := by
  have hbackwards : d.opposite.parse (String.ofList (backwards text.toList)) = .ok u ↔
      Derives d.opposite (mirrored (tokens text.toList)) u := by
    rw [(parse_eq_ok_iff_derives _ _).1, String.toList_ofList, tokens_backwards]
  rw [hbackwards]
  constructor
  · intro h
    have hback := h.mirrored
    rw [opposite_opposite, mirrored_mirrored] at hback
    exact ⟨u.reversed, parseChars_of_derives hback, u.reversed_reversed⟩
  · rintro ⟨t, ht, rfl⟩
    exact (derives_of_parseChars ht).mirrored

/-- **Mirror images.** Whatever the operations are, a text is accepted in one of the two notations
exactly when the text backwards is accepted in the other, and what it is read as there has the
operands of every operation in reverse. -/
theorem parse_backwards (p : Placement) (r : Registry) (text : String) :
    ((Dialect.mk p.opposite r).parse (String.ofList (backwards text.toList))).toOption =
      ((Dialect.mk p r).parse text).toOption.map Formula.reversed := by
  have hiff := parse_backwards_eq_ok_iff ⟨p, r⟩ text
  cases h : (Dialect.mk p r).parse text with
  | ok t =>
      have hback := (hiff t.reversed).mpr ⟨t, h, rfl⟩
      rw [opposite] at hback
      rw [hback]
      rfl
  | error e =>
      cases hback : (Dialect.mk p.opposite r).parse (String.ofList (backwards text.toList)) with
      | error e' => rfl
      | ok u =>
          obtain ⟨t, ht, -⟩ := (hiff u).mp hback
          cases h.symm.trans ht

end Dialect
end Formulary
