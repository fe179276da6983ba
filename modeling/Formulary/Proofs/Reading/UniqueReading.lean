import Formulary.Proofs.Number.Layouts
import Formulary.Proofs.Reading.Rereading

/-!
# What a text is the form of

A bracketed form belongs to one valid formula only, but for the signs of zeros, and
so does a flat form without means and variances. No reader is needed for this: a
constant that no reader takes is still spelled in a way of its own. In the bracketed
form the operands of a group end where no formula can begin. In the flat form the
last word is that of the root, whose symbol tells how many operands stand before it.
-/

namespace Formulary

/-- A name or a symbol that a word stands for. Numbers are left out: of the words of constants
some mean nothing. -/
def named? (word : List Char) : Option Item :=
  match Registry.standard.item? word with
  | some (.formula (.const _)) => none
  | i? => i?

namespace Formula

/-! ## The word of a node -/

/-- The word by which a node is written. -/
def word : Formula → List Char
  | .const value => Number.constant value
  | .var name => name.toList
  | .apply symbol _ => symbol.toList

/-- Two formulas whose roots differ in the sign of a zero at most. -/
inductive SameRoot : Formula → Formula → Prop
  | const {x y : Float} : Number.dropZeroSign x = Number.dropZeroSign y →
      SameRoot (.const x) (.const y)
  | var (name : String) : SameRoot (.var name) (.var name)
  | apply (symbol : String) (xs ys : List Formula) : SameRoot (.apply symbol xs) (.apply symbol ys)

theorem named?_of_wordMeans {word : List Char} {i : Item}
    (h : WordMeans (.standard .first) word i) (hi : ∀ v, i ≠ .formula (.const v)) :
    named? word = some i := by
  have hitem : Registry.standard.item? word = some i := wordMeans_iff.mp h
  rw [named?, hitem]
  cases i with
  | operator symbol => rfl
  | formula t =>
      cases t with
      | const v => exact absurd rfl (hi v)
      | _ => rfl

theorem named?_constant (x : Float) : named? (Number.constant x) = none := by
  rw [named?]
  cases h : Binary64.isIntegral x with
  | true =>
      obtain ⟨u, hread, -⟩ := Number.literal?_constant h
      rw [wordMeans_iff.mp (wordMeans_literal (p := .first) hread)]
  | false => rw [Number.item?_constant h]

theorem named?_name {name : String} (h : problem? Registry.standard (.var name) = none) :
    named? name.toList = some (.formula (.var name)) := by
  have hname : name ∈ argumentNames := by
    by_contra hname
    simp [problem?, hname] at h
  exact named?_of_wordMeans (wordMeans_name hname) (fun v hv => by cases hv)

theorem named?_symbol {symbol : String} {xs : List Formula}
    (h : problem? Registry.standard (.apply symbol xs) = none) :
    named? symbol.toList = some (.operator symbol) := by
  obtain ⟨op, hop, hadmits⟩ := problem?_apply_eq_none_iff.mp h
  obtain rfl := Operation.symbol_of_ofSymbol? hop
  exact named?_of_wordMeans (wordMeans_symbol (knows_of_admits hadmits)) (fun v hv => by cases hv)

/-- **Roots.** The word of a valid node tells what node it is. -/
theorem sameRoot_of_word {t u : Formula} (ht : problem? Registry.standard t = none)
    (hu : problem? Registry.standard u = none) (h : t.word = u.word) : SameRoot t u := by
  have hnamed : named? t.word = named? u.word := congrArg named? h
  cases t with
  | const x =>
      rw [word, named?_constant] at hnamed
      cases u with
      | const y =>
          have hx : x.isFinite = true := by simpa [problem?] using ht
          have hy : y.isFinite = true := by simpa [problem?] using hu
          exact .const (Number.constant_injective hx hy h)
      | var name => rw [word, named?_name hu] at hnamed; cases hnamed
      | apply symbol ys => rw [word, named?_symbol hu] at hnamed; cases hnamed
  | var name =>
      rw [word, named?_name ht] at hnamed
      cases u with
      | const y => rw [word, named?_constant] at hnamed; cases hnamed
      | var other => rw [word, named?_name hu] at hnamed; cases hnamed; exact .var name
      | apply symbol ys => rw [word, named?_symbol hu] at hnamed; cases hnamed
  | apply symbol xs =>
      rw [word, named?_symbol ht] at hnamed
      cases u with
      | const y => rw [word, named?_constant] at hnamed; cases hnamed
      | var name => rw [word, named?_name hu] at hnamed; cases hnamed
      | apply other ys =>
          rw [word, named?_symbol hu] at hnamed
          cases hnamed
          exact .apply symbol xs ys

/-! ## Bracketed forms -/

/-- The tokens of the bracketed form. -/
def spelling (p : Placement) (t : Formula) : List Token := (t.spelled p 0).map Placed.token

theorem map_token_spelledAll {p : Placement} {xs : List Formula}
    (h : ∀ x ∈ xs, ∀ offset, (x.spelled p offset).map Placed.token = x.spelling p) (offset : Nat) :
    (spelledAll p offset xs).map Placed.token = xs.flatMap (spelling p) := by
  induction xs generalizing offset with
  | nil => rfl
  | cons x xs ih =>
      obtain ⟨hx, hxs⟩ := List.forall_mem_cons.mp h
      obtain ⟨start, later, htokens⟩ := spelledAll_cons p offset x xs
      rw [htokens, List.map_append, hx start, ih hxs later, List.flatMap_cons]

/-- Where a formula stands does not change its tokens. -/
theorem map_token_spelled (p : Placement) (t : Formula) (offset : Nat) :
    (t.spelled p offset).map Placed.token = t.spelling p := by
  induction t using operandsInduction generalizing offset with
  | const value => rfl
  | var name => rfl
  | apply symbol xs ih =>
      obtain ⟨start, htokens⟩ := spelled_apply p offset symbol xs
      obtain ⟨start', htokens'⟩ := spelled_apply p 0 symbol xs
      rw [spelling, htokens, htokens', map_token_spelledAll ih, map_token_spelledAll ih]

theorem spelling_apply (p : Placement) (symbol : String) (xs : List Formula) :
    (apply symbol xs).spelling p = p.group symbol.toList (xs.flatMap (spelling p)) := by
  obtain ⟨start, htokens⟩ := spelled_apply p 0 symbol xs
  rw [spelling, htokens, map_token_spelledAll fun x _ => map_token_spelled p x]

/-- A token that begins no valid formula. -/
inductive Stops : Token → Prop
  | closing : Stops .closing
  | symbol {word : List Char} {symbol : String} : named? word = some (.operator symbol) →
      Stops (.word word)

theorem not_stops_spelling {p : Placement} {t : Formula} (h : problem? Registry.standard t = none)
    {token : Token} {rest more : List Token} (htokens : t.spelling p ++ more = token :: rest) :
    ¬ Stops token := by
  intro hstops
  cases t with
  | const x =>
      cases htokens
      cases hstops with
      | symbol hsymbol =>
          rw [named?_constant] at hsymbol
          cases hsymbol
  | var name =>
      cases htokens
      cases hstops with
      | symbol hsymbol =>
          rw [named?_name h] at hsymbol
          cases hsymbol
  | apply symbol xs =>
      rw [spelling_apply] at htokens
      cases p <;> cases htokens <;> cases hstops

/-- A formula that is told apart by its tokens from any other, whatever follows them. -/
def ReadsUniquely (p : Placement) (t : Formula) : Prop :=
  ∀ u : Formula, u.problems Registry.standard = [] → ∀ rest rest' : List Token,
    t.spelling p ++ rest = u.spelling p ++ rest' → t.dropZeroSigns = u.dropZeroSigns ∧ rest = rest'

/-- Lists of formulas are told apart when they end where no formula begins. -/
theorem map_eq_of_flatMap_spelling {p : Placement} {xs ys : List Formula}
    (ih : ∀ x ∈ xs, x.ReadsUniquely p) (hxs : ∀ x ∈ xs, x.problems Registry.standard = [])
    (hys : ∀ y ∈ ys, y.problems Registry.standard = []) {stop stop' : Token}
    (hstop : Stops stop) (hstop' : Stops stop') {rest rest' : List Token}
    (h : xs.flatMap (spelling p) ++ stop :: rest = ys.flatMap (spelling p) ++ stop' :: rest') :
    xs.map dropZeroSigns = ys.map dropZeroSigns ∧ stop :: rest = stop' :: rest' := by
  have hbegins : ∀ {y : Formula} {more : List Token} {token : Token} {later : List Token},
      y.problems Registry.standard = [] → y.spelling p ++ more = token :: later → ¬ Stops token :=
    fun hy => not_stops_spelling ((problems_eq_nil_iff _ _).mp hy).1
  induction xs generalizing ys with
  | nil =>
      cases ys with
      | nil => exact ⟨rfl, h⟩
      | cons y ys =>
          rw [List.flatMap_cons, List.append_assoc] at h
          exact absurd hstop (hbegins (List.forall_mem_cons.mp hys).1 h.symm)
  | cons x xs ihxs =>
      obtain ⟨hx, hxs⟩ := List.forall_mem_cons.mp hxs
      obtain ⟨ihx, ihrest⟩ := List.forall_mem_cons.mp ih
      rw [List.flatMap_cons, List.append_assoc] at h
      cases ys with
      | nil => exact absurd hstop' (hbegins hx h)
      | cons y ys =>
          obtain ⟨hy, hys⟩ := List.forall_mem_cons.mp hys
          rw [List.flatMap_cons, List.append_assoc] at h
          obtain ⟨hhere, hlater⟩ := ihx y hy _ _ h
          obtain ⟨hmap, hends⟩ := ihxs ihrest hxs hys hlater
          exact ⟨by rw [List.map_cons, List.map_cons, hhere, hmap], hends⟩

/-- A leaf is its word, and nothing but a leaf begins with a word. -/
theorem sameRoot_of_leaf {p : Placement} {t u : Formula} (ht : problem? Registry.standard t = none)
    (hu : problem? Registry.standard u = none) (hleaf : t.spelling p = [.word t.word])
    {rest rest' : List Token} (h : t.spelling p ++ rest = u.spelling p ++ rest') :
    SameRoot t u ∧ rest = rest' := by
  have hword : u.spelling p = [.word u.word] := by
    cases u with
    | apply symbol ys =>
        rw [hleaf, spelling_apply] at h
        cases p <;> cases h
    | _ => rfl
  rw [hleaf, hword, List.singleton_append, List.singleton_append, List.cons.injEq,
    Token.word.injEq] at h
  exact ⟨sameRoot_of_word ht hu h.1, h.2⟩

/-- **Unique reading.** No two valid formulas begin with the same tokens. -/
theorem readsUniquely (p : Placement) {t : Formula} (ht : t.problems Registry.standard = []) :
    t.ReadsUniquely p := by
  induction t using operandsInduction with
  | const x =>
      intro u hu rest rest' h
      obtain ⟨hroot, hrest⟩ := sameRoot_of_leaf ((problems_eq_nil_iff _ _).mp ht).1
        ((problems_eq_nil_iff _ _).mp hu).1 rfl h
      cases hroot with
      | const hxy => exact ⟨congrArg const hxy, hrest⟩
  | var name =>
      intro u hu rest rest' h
      obtain ⟨hroot, hrest⟩ := sameRoot_of_leaf ((problems_eq_nil_iff _ _).mp ht).1
        ((problems_eq_nil_iff _ _).mp hu).1 rfl h
      cases hroot with
      | var => exact ⟨rfl, hrest⟩
  | apply symbol xs ih =>
      obtain ⟨hroot, hxs⟩ := (problems_eq_nil_iff _ _).mp ht
      have hoperands : ∀ x ∈ xs, x.ReadsUniquely p := fun x hx => ih x hx (hxs x hx)
      intro u hu rest rest' h
      obtain ⟨hroot', hys⟩ := (problems_eq_nil_iff _ _).mp hu
      cases u with
      | apply other ys =>
          rw [operands] at hys
          rw [spelling_apply, spelling_apply] at h
          rw [dropZeroSigns_apply, dropZeroSigns_apply]
          cases p with
          | first =>
              simp only [Placement.group, List.append_assoc, List.cons_append, List.nil_append,
                List.cons.injEq, Token.word.injEq, true_and] at h
              obtain ⟨hsymbol, hbehind⟩ := h
              obtain rfl := String.toList_injective hsymbol
              obtain ⟨hmap, hends⟩ := map_eq_of_flatMap_spelling hoperands hxs hys
                .closing .closing hbehind
              exact ⟨by rw [hmap], List.tail_eq_of_cons_eq hends⟩
          | last =>
              simp only [Placement.group, List.append_assoc, List.cons_append, List.nil_append,
                List.cons.injEq, true_and] at h
              obtain ⟨hmap, hends⟩ := map_eq_of_flatMap_spelling hoperands hxs hys
                (.symbol (named?_symbol hroot)) (.symbol (named?_symbol hroot')) h
              simp only [List.cons.injEq, Token.word.injEq, true_and] at hends
              obtain ⟨hsymbol, hrest⟩ := hends
              obtain rfl := String.toList_injective hsymbol
              exact ⟨by rw [hmap], hrest⟩
      | _ =>
          obtain ⟨hsame, -⟩ := sameRoot_of_leaf hroot' hroot rfl h.symm
          cases hsame

theorem eq_of_toText {p : Placement} {t u : Formula} (ht : t.problems Registry.standard = [])
    (hu : u.problems Registry.standard = []) (h : t.toText p = u.toText p) :
    t.dropZeroSigns = u.dropZeroSigns := by
  have hwritten : t.write p = u.write p := by rw [← toList_toText, h, toList_toText]
  have hspelled : t.spelled p 0 = u.spelled p 0 := by
    rw [← tokensFrom_write p (over_of_problems t ht), hwritten,
      tokensFrom_write p (over_of_problems u hu)]
  have hspelling : t.spelling p ++ [] = u.spelling p ++ [] := by
    rw [spelling, hspelled, ← spelling]
  exact (readsUniquely p ht u hu [] [] hspelling).1

/-! ## The flat form -/

/-- The words of the flat form are those of the operands and then that of the root. -/
theorem flatWords_eq (t : Formula) : t.flatWords = t.operands.flatMap flatWords ++ [t.word] := by
  cases t with
  | apply symbol xs => rw [flatWords, flatWordsAll_eq_flatMap, operands, word]
  | _ => rfl

theorem symbols_apply (symbol : String) (xs : List Formula) :
    (apply symbol xs).symbols = symbol :: xs.flatMap symbols :=
  filterMap_nodes symbol? _

/-- The number of operands of a valid operation of fixed arity is known from its symbol. -/
theorem length_eq_of_symbol {symbol : String} {xs ys : List Formula}
    (hx : problem? Registry.standard (apply symbol xs) = none)
    (hy : problem? Registry.standard (apply symbol ys) = none) (hmean : symbol ≠ "mean")
    (hvar : symbol ≠ "var") : xs.length = ys.length := by
  obtain ⟨op, hop, hadmits⟩ := problem?_apply_eq_none_iff.mp hx
  obtain ⟨op', hop', hadmits'⟩ := problem?_apply_eq_none_iff.mp hy
  obtain rfl : op = op' := Option.some.inj (hop.symm.trans hop')
  have hcount : ∀ n, op.arity.admits n = true → op.arity = .exactly n := by
    intro n hn
    cases harity : op.arity with
    | exactly k =>
        rw [harity, Arity.admits, Bool.and_eq_true] at hn
        rw [eq_of_beq hn.2]
    | variadic =>
        have hvariadic : Registry.standard.IsVariadic symbol :=
          Registry.standard_arity?_eq_some_iff.mpr
            ⟨op, Operation.symbol_of_ofSymbol? hop, harity⟩
        rcases Registry.standard_isVariadic_iff.mp hvariadic with hsymbol | hsymbol
        · exact absurd hsymbol hmean
        · exact absurd hsymbol hvar
  exact Arity.exactly.inj ((hcount _ hadmits).symm.trans (hcount _ hadmits'))

/-- A formula that is told apart by its words from any other, whatever stands before them. -/
def ReadsUniquelyFlat (t : Formula) : Prop :=
  ∀ u : Formula, u.problems Registry.standard = [] → ∀ before before' : List (List Char),
    before ++ t.flatWords = before' ++ u.flatWords →
      t.dropZeroSigns = u.dropZeroSigns ∧ before = before'

/-- Lists of formulas are told apart when they have as many. -/
theorem map_eq_of_flatMap_flatWords {xs ys : List Formula}
    (ih : ∀ x ∈ xs, x.ReadsUniquelyFlat) (hys : ∀ y ∈ ys, y.problems Registry.standard = [])
    (hlength : xs.length = ys.length) {before before' : List (List Char)}
    (h : before ++ xs.flatMap flatWords = before' ++ ys.flatMap flatWords) :
    xs.map dropZeroSigns = ys.map dropZeroSigns ∧ before = before' := by
  induction xs using List.reverseRecOn generalizing ys with
  | nil =>
      obtain rfl := List.length_eq_zero_iff.mp hlength.symm
      exact ⟨rfl, by simpa using h⟩
  | append_singleton xs x ihxs =>
      rcases List.eq_nil_or_concat' ys with rfl | ⟨ys, y, rfl⟩
      · simp at hlength
      · simp only [List.flatMap_append, List.flatMap_singleton, ← List.append_assoc] at h
        obtain ⟨ihrest, ihx⟩ := List.forall_mem_append.mp ih
        obtain ⟨hys, hy⟩ := List.forall_mem_append.mp hys
        obtain ⟨hlast, hearlier⟩ := List.forall_mem_singleton.mp ihx y
          (hy y List.mem_cons_self) _ _ h
        obtain ⟨hmap, hbefore⟩ := ihxs ihrest hys (by simpa using hlength) hearlier
        exact ⟨by simp only [List.map_append, List.map_singleton, hlast, hmap], hbefore⟩

/-- **Unique reading.** No two valid formulas end with the same words, if one of them has neither
means nor variances. -/
theorem readsUniquelyFlat {t : Formula} (ht : t.problems Registry.standard = [])
    (hmean : "mean" ∉ t.symbols) (hvar : "var" ∉ t.symbols) : t.ReadsUniquelyFlat := by
  -- the last word tells the roots apart, and the words of their operands stand before it
  have hlast : ∀ {t u : Formula} {before before' : List (List Char)},
      t.problems Registry.standard = [] → u.problems Registry.standard = [] →
      before ++ t.flatWords = before' ++ u.flatWords → SameRoot t u ∧
        before ++ t.operands.flatMap flatWords = before' ++ u.operands.flatMap flatWords := by
    intro t u before before' ht hu h
    rw [flatWords_eq t, flatWords_eq u, ← List.append_assoc, ← List.append_assoc] at h
    obtain ⟨hbefore, hword⟩ := List.append_inj' h rfl
    exact ⟨sameRoot_of_word ((problems_eq_nil_iff _ _).mp ht).1
      ((problems_eq_nil_iff _ _).mp hu).1 (List.singleton_inj.mp hword), hbefore⟩
  induction t using operandsInduction with
  | const x =>
      intro u hu before before' h
      obtain ⟨hroot, hbefore⟩ := hlast ht hu h
      cases hroot with
      | const hxy => exact ⟨congrArg const hxy, by simpa [operands] using hbefore⟩
  | var name =>
      intro u hu before before' h
      obtain ⟨hroot, hbefore⟩ := hlast ht hu h
      cases hroot with
      | var => exact ⟨rfl, by simpa [operands] using hbefore⟩
  | apply symbol xs ih =>
      intro u hu before before' h
      obtain ⟨hroot, hbefore⟩ := hlast ht hu h
      cases hroot with
      | apply _ _ ys =>
          obtain ⟨hx, hxs⟩ := (problems_eq_nil_iff _ _).mp ht
          obtain ⟨hy, hys⟩ := (problems_eq_nil_iff _ _).mp hu
          rw [operands] at hys
          rw [symbols_apply, List.mem_cons, not_or, List.mem_flatMap] at hmean hvar
          have hoperands : ∀ x ∈ xs, x.ReadsUniquelyFlat := fun x hmem =>
            ih x hmem (hxs x hmem) (fun hin => hmean.2 ⟨x, hmem, hin⟩)
              (fun hin => hvar.2 ⟨x, hmem, hin⟩)
          obtain ⟨hmap, hbefore⟩ := map_eq_of_flatMap_flatWords hoperands hys
            (length_eq_of_symbol hx hy (Ne.symm hmean.1) (Ne.symm hvar.1)) hbefore
          exact ⟨by rw [dropZeroSigns_apply, dropZeroSigns_apply, hmap], hbefore⟩

theorem eq_of_toFlatText {t u : Formula} (ht : t.problems Registry.standard = [])
    (hu : u.problems Registry.standard = []) (hmean : "mean" ∉ t.symbols)
    (hvar : "var" ∉ t.symbols) (h : t.toFlatText = u.toFlatText) :
    t.dropZeroSigns = u.dropZeroSigns := by
  have hwritten : t.writeFlat = u.writeFlat := by
    rw [toFlatText, toFlatText] at h
    exact String.ofList_injective h
  have hwords : [] ++ t.flatWords = [] ++ u.flatWords := by
    rw [← words_writeFlat (over_of_problems t ht), hwritten,
      words_writeFlat (over_of_problems u hu)]
  exact (readsUniquelyFlat ht hmean hvar u hu [] [] hwords).1

end Formula
end Formulary
