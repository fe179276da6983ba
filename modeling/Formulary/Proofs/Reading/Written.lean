import Formulary.Proofs.Number.Spelling
import Formulary.Reading.Grammar

/-!
# The tokens of a written formula

The bracketed form of a formula, token by token. Brackets and spaces keep the
words apart, so every word that is written is a token of its own, and it stands
where the lengths of the words before it put it.
-/

namespace Formulary

/-- A word that a reader takes for an operation with so many operands. -/
structure Registry.Knows (r : Registry) (symbol : String) (count : Nat) : Prop where
  word : IsWord symbol.toList
  not_name : symbol ∉ argumentNames
  not_literal : Number.integer? symbol.toList = none
  admitted : ∃ arity, r.arity? symbol = some arity ∧ arity.admits count = true

namespace Formula

mutual
/-- A formula over the arguments and the operations of a registry. -/
def Over (r : Registry) : Formula → Prop
  | .const _ => True
  | .var name => name ∈ argumentNames
  | .apply symbol xs => r.Knows symbol xs.length ∧ OverAll r xs
def OverAll (r : Registry) : List Formula → Prop
  | [] => True
  | x :: xs => Over r x ∧ OverAll r xs
end

/-! ## The tokens of a written formula -/

mutual
/-- The tokens of the bracketed form that begins at an offset. -/
def spelled (p : Placement) (offset : Nat) : Formula → List Placed
  | .const value => [⟨.word (Number.constant value), offset⟩]
  | .var name => [⟨.word name.toList, offset⟩]
  | .apply symbol xs =>
    match p with
    | .first =>
      let start := offset + 1 + symbol.toList.length
      ⟨.opening, offset⟩ :: ⟨.word symbol.toList, offset + 1⟩ ::
        (spelledAll .first start xs ++ [⟨.closing, start + (writeAllOnto .first xs []).length⟩])
    | .last =>
      let behind := offset + 1 + (writeAllOnto .last xs []).length
      ⟨.opening, offset⟩ :: (spelledAll .last (offset + 1) xs ++
        [⟨.word symbol.toList, behind⟩, ⟨.closing, behind + symbol.toList.length⟩])
def spelledAll (p : Placement) (offset : Nat) : List Formula → List Placed
  | [] => []
  | x :: xs =>
    match p with
    | .first =>
      spelled .first (offset + 1) x ++ spelledAll .first (offset + 1 + (x.write .first).length) xs
    | .last =>
      spelled .last offset x ++ spelledAll .last (offset + (x.write .last).length + 1) xs
end

/-- The operands follow one another wherever they stand. -/
theorem spelledAll_cons (p : Placement) (offset : Nat) (x : Formula) (xs : List Formula) :
    ∃ start later, spelledAll p offset (x :: xs) = x.spelled p start ++ spelledAll p later xs := by
  cases p with
  | first => exact ⟨_, _, by rw [spelledAll]⟩
  | last => exact ⟨_, _, by rw [spelledAll]⟩

/-- The tokens of a group are those that the grammar has. -/
theorem spelled_apply (p : Placement) (offset : Nat) (symbol : String) (xs : List Formula) :
    ∃ start, ((apply symbol xs).spelled p offset).map Placed.token =
      p.group symbol.toList ((spelledAll p start xs).map Placed.token) := by
  cases p with
  | first => exact ⟨offset + 1 + symbol.toList.length, by simp [spelled, Placement.group]⟩
  | last => exact ⟨offset + 1, by simp [spelled, Placement.group]⟩

theorem writeAllOnto_append (p : Placement) (xs : List Formula) (rest : List Char) :
    writeAllOnto p xs rest = writeAllOnto p xs [] ++ rest := by
  rw [writeAllOnto_eq p xs rest, writeAllOnto_eq p xs [], List.append_nil]

theorem endsWord_closing (rest : List Char) : EndsWord (')' :: rest) :=
  endsWord_cons (by decide) rest

theorem endsWord_space (rest : List Char) : EndsWord (' ' :: rest) :=
  endsWord_cons (by decide) rest

theorem isWord_of_mem_argumentNames {name : String} (h : name ∈ argumentNames) :
    IsWord name.toList := by
  have hall : argumentNames.all (fun s => decide (IsWord s.toList)) = true := by decide
  exact of_decide_eq_true (List.all_eq_true.mp hall name h)

theorem tokensFrom_space (offset : Nat) (rest : List Char) :
    tokensFrom offset (' ' :: rest) = tokensFrom (offset + 1) rest :=
  tokensFrom_blank (by decide) offset rest

mutual
/-- **Tokens.** What is written is cut into what was put down. -/
theorem tokensFrom_writeOnto {r : Registry} (p : Placement) : (t : Formula) → t.Over r →
    (rest : List Char) → EndsWord rest → (offset : Nat) →
    tokensFrom offset (t.writeOnto p rest) =
      t.spelled p offset ++ tokensFrom (offset + (t.write p).length) rest
  | .const value, _, rest, hrest, offset => by
      rw [writeOnto, tokensFrom_word (Number.isWord_constant value) hrest, spelled, write_const]
      rfl
  | .var name, hname, rest, hrest, offset => by
      rw [writeOnto, tokensFrom_word (isWord_of_mem_argumentNames hname) hrest, spelled, write_var]
      rfl
  | .apply symbol xs, h, rest, hrest, offset => by
      obtain ⟨hsymbol, hxs⟩ := h
      cases p with
      | first =>
          have hoperands := tokensFrom_writeAllOnto .first xs hxs (')' :: rest)
            (fun _ => endsWord_closing rest)
          -- behind the symbol comes a space or, without operands, the closing bracket
          have hends : EndsWord (writeAllOnto .first xs (')' :: rest)) := by
            cases xs with
            | nil => exact endsWord_closing rest
            | cons x xs => exact endsWord_space _
          simp only [writeOnto, spelled, write]
          rw [tokensFrom_opening, tokensFrom_word hsymbol.word hends, hoperands,
            tokensFrom_closing, writeAllOnto_append .first xs [')']]
          simp [Nat.add_assoc, Nat.add_comm 1]
      | last =>
          have hoperands := tokensFrom_writeAllOnto .last xs hxs (symbol.toList ++ ')' :: rest)
            (fun hfirst => by cases hfirst)
          simp only [writeOnto, spelled, write]
          rw [tokensFrom_opening, hoperands, tokensFrom_word hsymbol.word (endsWord_closing rest),
            tokensFrom_closing, writeAllOnto_append .last xs (symbol.toList ++ [')'])]
          simp [Nat.add_assoc, Nat.add_comm 1]
theorem tokensFrom_writeAllOnto {r : Registry} (p : Placement) : (xs : List Formula) →
    OverAll r xs → (rest : List Char) → (p = .first → EndsWord rest) → (offset : Nat) →
    tokensFrom offset (writeAllOnto p xs rest) =
      spelledAll p offset xs ++ tokensFrom (offset + (writeAllOnto p xs []).length) rest
  | [], _, rest, _, offset => by
      simp [writeAllOnto, spelledAll]
  | x :: xs, h, rest, hrest, offset => by
      obtain ⟨hx, hxs⟩ := h
      cases p with
      | first =>
          have hends : EndsWord (writeAllOnto .first xs rest) := by
            cases xs with
            | nil => exact hrest rfl
            | cons x xs => exact endsWord_space _
          simp only [writeAllOnto, spelledAll]
          rw [tokensFrom_space, tokensFrom_writeOnto .first x hx _ hends,
            tokensFrom_writeAllOnto .first xs hxs rest hrest, writeOnto_eq .first x]
          simp [Nat.add_assoc, Nat.add_comm 1]
      | last =>
          simp only [writeAllOnto, spelledAll]
          rw [tokensFrom_writeOnto .last x hx _ (endsWord_space _), tokensFrom_space,
            tokensFrom_writeAllOnto .last xs hxs rest hrest, writeOnto_eq .last x]
          simp [Nat.add_assoc, Nat.add_comm 1]
end

/-- The tokens of a written formula. -/
theorem tokensFrom_write {r : Registry} (p : Placement) {t : Formula} (h : t.Over r) :
    tokensFrom 0 (t.write p) = t.spelled p 0 := by
  rw [write, tokensFrom_writeOnto p t h [] endsWord_nil 0]
  exact List.append_nil _

end Formula
end Formulary
