import Formulary.Formula.Sameness
import Formulary.Proofs.Formula.Preorder
import Formulary.Proofs.Reading.Derivations
import Formulary.Proofs.Reading.EarliestDefect
import Formulary.Proofs.Reading.Written

/-!
# Reading what was written

The tokens of a written formula derive a formula like it as long as its constants
are integral. With the standard operations a pass over them stops at the first
constant that is not, since everything before it is in order.
-/

namespace Formulary

namespace Formula

/-! ## Integral constants -/

/-- Formulas that are equal and written alike. -/
structure Alike (u t : Formula) : Prop where
  same : same false u t = true
  write : ∀ p, u.write p = t.write p
  writeFlat : u.writeFlat = t.writeFlat

/-- Lists of such formulas. -/
structure AlikeAll (us ts : List Formula) : Prop where
  same : sameAll false us ts = true
  write : ∀ p, us.map (Formula.write p) = ts.map (Formula.write p)
  writeFlat : us.map Formula.writeFlat = ts.map Formula.writeFlat

theorem AlikeAll.length_eq {us ts : List Formula} (h : AlikeAll us ts) :
    us.length = ts.length := by
  simpa using congrArg List.length h.writeFlat

theorem AlikeAll.cons {u t : Formula} {us ts : List Formula} (h : Alike u t)
    (hs : AlikeAll us ts) : AlikeAll (u :: us) (t :: ts) where
  same := by rw [sameAll, h.same, hs.same, Bool.and_self]
  write p := by rw [List.map_cons, List.map_cons, h.write, hs.write]
  writeFlat := by rw [List.map_cons, List.map_cons, h.writeFlat, hs.writeFlat]

theorem AlikeAll.apply {us ts : List Formula} (h : AlikeAll us ts) (symbol : String) :
    Alike (.apply symbol us) (.apply symbol ts) where
  same := by rw [Formula.same, h.same, beq_self_eq_true, Bool.and_self]
  write p := by rw [write_apply, write_apply, h.write]
  writeFlat := by rw [writeFlat_apply, writeFlat_apply, h.writeFlat]

theorem alike_const {u v : Float} (hbeq : (u == v) = true)
    (htext : Number.constant u = Number.constant v) : Alike (.const u) (.const v) where
  same := by rw [same, sameValue, hbeq, Bool.true_or]
  write p := by rw [write_const, write_const, htext]
  writeFlat := by rw [writeFlat_const, writeFlat_const, htext]

theorem alike_var (name : String) : Alike (.var name) (.var name) where
  same := by rw [same, beq_self_eq_true]
  write _ := rfl
  writeFlat := rfl

/-! ## Words that mean something -/

variable {r : Registry} {p : Placement}

theorem wordMeans_name {name : String} (h : name ∈ argumentNames) :
    WordMeans ⟨p, r⟩ name.toList (.formula (.var name)) := by
  have hmeans : String.ofList name.toList ∈ argumentNames →
      WordMeans ⟨p, r⟩ name.toList (.formula (.var (String.ofList name.toList))) := .argument
  rw [String.ofList_toList] at hmeans
  exact hmeans h

theorem wordMeans_literal {word : List Char} {value : Float}
    (h : Number.literal? word = some value) : WordMeans ⟨p, r⟩ word (.formula (.const value)) := by
  refine .literal ?_ h
  intro hname
  have hall : argumentNames.all (fun s => (Number.integer? s.toList).isNone) = true := by decide
  have hnone := List.all_eq_true.mp hall _ hname
  rw [String.toList_ofList, Option.isNone_iff_eq_none] at hnone
  rw [Number.literal?, hnone] at h
  cases h

theorem wordMeans_symbol {symbol : String} {count : Nat} (h : r.Knows symbol count) :
    WordMeans ⟨p, r⟩ symbol.toList (.operator symbol) := by
  obtain ⟨arity, harity, -⟩ := h.admitted
  have hliteral : Number.literal? symbol.toList = none := by
    rw [Number.literal?, h.not_literal, Option.map_none]
  have hmeans : String.ofList symbol.toList ∉ argumentNames →
      r.arity? (String.ofList symbol.toList) = some arity →
      WordMeans ⟨p, r⟩ symbol.toList (.operator (String.ofList symbol.toList)) :=
    fun hname harity => .operation hname hliteral harity
  rw [String.ofList_toList] at hmeans
  exact hmeans h.not_name harity

/-! ## What is read back -/

mutual
/-- A formula without the signs of its zeros. -/
def dropZeroSigns : Formula → Formula
  | .const value => .const (Number.dropZeroSign value)
  | .var name => .var name
  | .apply symbol xs => .apply symbol (dropZeroSignsAll xs)
def dropZeroSignsAll : List Formula → List Formula
  | [] => []
  | x :: xs => dropZeroSigns x :: dropZeroSignsAll xs
end

theorem mem_constants_const (value : Float) : value ∈ (const value).constants := by
  rw [constants_eq]
  exact List.mem_append_left _ List.mem_cons_self

theorem constants_apply (symbol : String) (xs : List Formula) :
    (apply symbol xs).constants = xs.flatMap constants :=
  constants_eq _

mutual
/-- Without the signs of its zeros a formula is equal to itself and written alike. -/
theorem alike_dropZeroSigns : (t : Formula) →
    (∀ v ∈ t.constants, Binary64.isIntegral v = true) → Alike t.dropZeroSigns t
  | .const value, hintegral => by
      have hvalue := hintegral value (mem_constants_const value)
      obtain ⟨hbeq, htext⟩ := Number.dropZeroSign_alike hvalue
      exact alike_const hbeq htext
  | .var name, _ => alike_var name
  | .apply symbol xs, hintegral => by
      rw [constants_apply] at hintegral
      exact (alikeAll_dropZeroSignsAll xs hintegral).apply symbol
theorem alikeAll_dropZeroSignsAll : (xs : List Formula) →
    (∀ v ∈ xs.flatMap constants, Binary64.isIntegral v = true) → AlikeAll (dropZeroSignsAll xs) xs
  | [], _ => ⟨rfl, fun _ => rfl, rfl⟩
  | x :: xs, hintegral => by
      rw [List.flatMap_cons, List.forall_mem_append] at hintegral
      exact .cons (alike_dropZeroSigns x hintegral.1) (alikeAll_dropZeroSignsAll xs hintegral.2)
end

mutual
/-- The tokens of a written formula derive it, but for the signs of its zeros. -/
theorem derives_dropZeroSigns (p : Placement) : (t : Formula) → t.Over r →
    (∀ v ∈ t.constants, Binary64.isIntegral v = true) → (offset : Nat) →
    Derives ⟨p, r⟩ ((t.spelled p offset).map Placed.token) t.dropZeroSigns
  | .const value, _, hintegral, offset =>
      .leaf (wordMeans_literal
        (Number.literal?_constant_eq (hintegral value (mem_constants_const value))))
  | .var name, hname, _, offset => .leaf (wordMeans_name hname)
  | .apply symbol xs, h, hintegral, offset => by
      obtain ⟨hsymbol, hxs⟩ := h
      obtain ⟨arity, harity, hadmits⟩ := hsymbol.admitted
      rw [constants_apply] at hintegral
      obtain ⟨start, htokens⟩ := spelled_apply p offset symbol xs
      have hoperands := derivesAll_dropZeroSignsAll p xs hxs hintegral start
      have hlength := (alikeAll_dropZeroSignsAll xs hintegral).length_eq
      rw [htokens]
      exact .group (wordMeans_symbol hsymbol) harity (hlength ▸ hadmits) hoperands
theorem derivesAll_dropZeroSignsAll (p : Placement) : (xs : List Formula) → OverAll r xs →
    (∀ v ∈ xs.flatMap constants, Binary64.isIntegral v = true) → (offset : Nat) →
    DerivesAll ⟨p, r⟩ ((spelledAll p offset xs).map Placed.token) (dropZeroSignsAll xs)
  | [], _, _, _ => .nil
  | x :: xs, h, hintegral, offset => by
      obtain ⟨hx, hxs⟩ := h
      rw [List.flatMap_cons, List.forall_mem_append] at hintegral
      obtain ⟨hhere, hlater⟩ := hintegral
      obtain ⟨start, later, htokens⟩ := spelledAll_cons p offset x xs
      rw [htokens, List.map_append]
      exact .cons (derives_dropZeroSigns p x hx hhere start)
        (derivesAll_dropZeroSignsAll p xs hxs hlater later)
end

end Formula

/-! ## Constants that are not integral -/

namespace Progress

variable {d : Dialect}

/-- A word that the pass knows nothing of. -/
def unknown (d : Dialect) (q : Placed) : Bool :=
  match q.token with
  | .word word => (mark? d word).isNone
  | _ => false

/-- A pass over the tokens goes from one point to another, unless there is an unknown word among
them; then it stops at the first one. -/
structure Scans (d : Dialect) (tokens : List Placed) (p p' : Progress) : Prop where
  known : tokens.find? (unknown d) = none → tokens.foldlM (step d) p = .ok p'
  stops : ∀ word offset, tokens.find? (unknown d) = some ⟨.word word, offset⟩ →
    tokens.foldlM (step d) p = .error ⟨.unknownToken (String.ofList word), offset⟩

theorem Scans.nil (p : Progress) : Scans d [] p p where
  known _ := rfl
  stops _ _ h := by cases h

theorem Scans.append {ts us : List Placed} {p p' p'' : Progress} (h : Scans d ts p p')
    (h' : Scans d us p' p'') : Scans d (ts ++ us) p p'' where
  known hnone := by
    rw [List.find?_append, Option.or_eq_none_iff] at hnone
    rw [List.foldlM_append, h.known hnone.1]
    exact h'.known hnone.2
  stops word offset hsome := by
    rw [List.find?_append] at hsome
    rw [List.foldlM_append]
    cases hts : ts.find? (unknown d) with
    | none =>
        rw [hts, Option.none_or] at hsome
        rw [h.known hts]
        exact h'.stops word offset hsome
    | some q =>
        rw [hts, Option.some_or] at hsome
        cases hsome
        rw [h.stops word offset hts]
        rfl

theorem Scans.single {q : Placed} {p p' : Progress} (hknown : unknown d q = false)
    (h : step d p q = .ok p') : Scans d [q] p p' where
  known _ := by
    rw [List.foldlM_cons, h]
    rfl
  stops word offset hsome := by
    rw [List.find?_cons_of_neg (by simp [hknown])] at hsome
    cases hsome

theorem Scans.word {word : List Char} (offset : Nat) (gs : List OpenGroup) {m : Mark}
    (h : mark? d word = some m) :
    Scans d [⟨.word word, offset⟩] (.within gs) (put gs m offset) := by
  refine .single ?_ ?_
  · simp [unknown, h]
  · simp [step, h]

theorem Scans.unknownWord {word : List Char} (offset : Nat) {gs : List OpenGroup} {p' : Progress}
    (h : mark? d word = none) : Scans d [⟨.word word, offset⟩] (.within gs) p' where
  known hnone := by simp [unknown, h] at hnone
  stops word' offset' hsome := by
    rw [List.find?_cons_of_pos (by simp [unknown, h])] at hsome
    cases hsome
    rw [List.foldlM_cons]
    simp only [step, h]
    rfl

theorem Scans.opening (offset : Nat) (gs : List OpenGroup) :
    Scans d [⟨.opening, offset⟩] (.within gs) (.within (⟨offset, []⟩ :: gs)) :=
  .single rfl rfl

theorem Scans.closing (offset : Nat) (g : OpenGroup) (gs : List OpenGroup)
    (h : groupDefect? d g.marks = none) :
    Scans d [⟨.closing, offset⟩] (.within (g :: gs)) (put gs .operand g.offset) := by
  refine .single rfl ?_
  simp only [step, h]

end Progress

namespace Formula

open Progress (Scans mark? groupDefect? put)

/-- The marks of a group as it is written, the last one first. -/
def writtenMarks (p : Placement) (symbol : String) (count : Nat) : List Mark :=
  match p with
  | .first => List.replicate count .operand ++ [.operator symbol]
  | .last => .operator symbol :: List.replicate count .operand

/-- The marks of a written group are in order. -/
theorem groupDefect?_writtenMarks {r : Registry} {symbol : String} {xs : List Formula}
    (h : r.Knows symbol xs.length) (p : Placement) :
    groupDefect? ⟨p, r⟩ (writtenMarks p symbol xs.length) = none := by
  obtain ⟨arity, harity, hadmits⟩ := h.admitted
  have hclose : (Dialect.mk p r).close (p.items symbol xs) = .ok (.apply symbol xs) :=
    Dialect.close_eq_ok_iff.mpr ⟨symbol, arity, xs, rfl, harity, hadmits, rfl⟩
  have hmarks : ((p.items symbol xs).map Item.mark).reverse = writtenMarks p symbol xs.length := by
    cases p with
    | first =>
        rw [writtenMarks]
        exact Dialect.marks_around symbol [] xs
    | last =>
        rw [writtenMarks]
        exact Dialect.marks_around symbol xs []
  rw [← hmarks, Dialect.groupDefect?_marks, hclose]

theorem mark?_of_wordMeans {d : Dialect} {word : List Char} {i : Item} (h : WordMeans d word i) :
    mark? d word = some i.mark := by
  rw [Progress.mark?_eq, wordMeans_iff.mp h, Option.map_some]

/-- A constant is an operand when it is integral, and unknown otherwise. -/
theorem mark?_constant (p : Placement) (v : Float) :
    mark? (.standard p) (Number.constant v) =
      if Binary64.isIntegral v then some .operand else none := by
  cases h : Binary64.isIntegral v with
  | true =>
      obtain ⟨u, hread, -⟩ := Number.literal?_constant h
      exact mark?_of_wordMeans (wordMeans_literal hread)
  | false =>
      rw [Progress.mark?_eq]
      exact congrArg (Option.map Item.mark) (Number.item?_constant h)

theorem scans_constant (p : Placement) (v : Float) (offset : Nat) (gs : List OpenGroup) :
    Scans (.standard p) [⟨.word (Number.constant v), offset⟩] (.within gs)
      (put gs .operand offset) := by
  have hmark := mark?_constant p v
  cases h : Binary64.isIntegral v with
  | true => exact .word offset gs (by simpa [h] using hmark)
  | false => exact .unknownWord offset (by simpa [h] using hmark)

mutual
theorem scans_spelled (p : Placement) : (t : Formula) → t.Over Registry.standard →
    (offset : Nat) → (gs : List OpenGroup) →
    Scans (.standard p) (t.spelled p offset) (.within gs) (put gs .operand offset)
  | .const value, _, offset, gs => scans_constant p value offset gs
  | .var name, hname, offset, gs => .word offset gs (mark?_of_wordMeans (wordMeans_name hname))
  | .apply symbol xs, h, offset, gs => by
      obtain ⟨hsymbol, hxs⟩ := h
      have hmark : ∀ p, mark? (.standard p) symbol.toList = some (.operator symbol) :=
        fun p => mark?_of_wordMeans (wordMeans_symbol hsymbol)
      cases p with
      | first =>
          have hopening := Scans.opening (d := .standard .first) offset gs
          have hword := Scans.word (offset + 1) (⟨offset, []⟩ :: gs) (hmark .first)
          have hoperands := scansAll_spelledAll .first xs hxs (offset + 1 + symbol.toList.length)
            ⟨offset, [.operator symbol]⟩ gs
          -- the group is in order wherever it is closed
          have hclosing := fun behind => Scans.closing behind ⟨offset, _⟩ gs
            (groupDefect?_writtenMarks hsymbol .first)
          rw [spelled]
          exact hopening.append (hword.append (hoperands.append (hclosing _)))
      | last =>
          have hopening := Scans.opening (d := .standard .last) offset gs
          have hoperands := scansAll_spelledAll .last xs hxs (offset + 1) ⟨offset, []⟩ gs
          rw [List.append_nil] at hoperands
          have hword := fun behind => Scans.word behind
            (⟨offset, List.replicate xs.length .operand⟩ :: gs) (hmark .last)
          have hclosing := fun behind => Scans.closing behind ⟨offset, _⟩ gs
            (groupDefect?_writtenMarks hsymbol .last)
          rw [spelled]
          exact hopening.append (hoperands.append ((hword _).append (hclosing _)))
theorem scansAll_spelledAll (p : Placement) : (xs : List Formula) →
    OverAll Registry.standard xs → (offset : Nat) → (g : OpenGroup) → (gs : List OpenGroup) →
    Scans (.standard p) (spelledAll p offset xs) (.within (g :: gs))
      (.within (⟨g.offset, List.replicate xs.length .operand ++ g.marks⟩ :: gs))
  | [], _, offset, g, gs => .nil _
  | x :: xs, h, offset, g, gs => by
      obtain ⟨hx, hxs⟩ := h
      have hmarks : List.replicate (x :: xs).length Mark.operand ++ g.marks =
          List.replicate xs.length .operand ++ .operand :: g.marks := by
        rw [List.length_cons, List.replicate_succ', List.append_assoc]
        rfl
      obtain ⟨start, later, htokens⟩ := spelledAll_cons p offset x xs
      rw [hmarks, htokens]
      exact (scans_spelled p x hx start (g :: gs)).append
        (scansAll_spelledAll p xs hxs later ⟨g.offset, .operand :: g.marks⟩ gs)
end

/-- The words of the constants that are not integral, from left to right. -/
def strayWords (t : Formula) : List Token :=
  (t.constants.filter fun v => !Binary64.isIntegral v).map fun v => .word (Number.constant v)

theorem strayWords_apply (symbol : String) (xs : List Formula) :
    (apply symbol xs).strayWords = xs.flatMap strayWords := by
  rw [strayWords, constants_apply, List.filter_flatMap, List.map_flatMap]
  rfl

open Progress (unknown)

theorem unknown_constant (p : Placement) (v : Float) (offset : Nat) :
    unknown (.standard p) ⟨.word (Number.constant v), offset⟩ = !Binary64.isIntegral v := by
  rw [unknown]
  dsimp only
  rw [mark?_constant]
  cases Binary64.isIntegral v <;> rfl

theorem unknown_of_wordMeans {d : Dialect} {word : List Char} {i : Item}
    (h : WordMeans d word i) (offset : Nat) : unknown d ⟨.word word, offset⟩ = false := by
  rw [unknown]
  dsimp only
  rw [mark?_of_wordMeans h]
  rfl

mutual
/-- The unknown words of a written formula are those of its constants that are not integral. -/
theorem filter_unknown_spelled (p : Placement) : (t : Formula) → t.Over Registry.standard →
    (offset : Nat) →
    ((t.spelled p offset).filter (unknown (.standard p))).map Placed.token = t.strayWords
  | .const value, _, offset => by
      rw [spelled, strayWords, constants_eq, List.filter_cons, unknown_constant]
      cases h : Binary64.isIntegral value <;> simp [constant?, operands, h]
  | .var name, hname, offset => by
      have hknown : unknown (.standard p) ⟨.word name.toList, offset⟩ = false :=
        unknown_of_wordMeans (wordMeans_name hname) offset
      rw [spelled, strayWords, constants_eq]
      simp [constant?, operands, hknown]
  | .apply symbol xs, h, offset => by
      obtain ⟨hsymbol, hxs⟩ := h
      have hword : ∀ p offset, unknown (.standard p) ⟨.word symbol.toList, offset⟩ = false :=
        fun p offset => unknown_of_wordMeans (wordMeans_symbol hsymbol) offset
      have hopening : ∀ d offset, unknown d ⟨.opening, offset⟩ = false := fun _ _ => rfl
      have hclosing : ∀ d offset, unknown d ⟨.closing, offset⟩ = false := fun _ _ => rfl
      rw [strayWords_apply]
      cases p with
      | first =>
          rw [spelled, ← filter_unknown_spelledAll .first xs hxs
            (offset + 1 + symbol.toList.length)]
          simp [hword, hopening, hclosing]
      | last =>
          rw [spelled, ← filter_unknown_spelledAll .last xs hxs (offset + 1)]
          simp [hword, hopening, hclosing]
theorem filter_unknown_spelledAll (p : Placement) : (xs : List Formula) →
    OverAll Registry.standard xs → (offset : Nat) →
    ((spelledAll p offset xs).filter (unknown (.standard p))).map Placed.token =
      xs.flatMap strayWords
  | [], _, _ => rfl
  | x :: xs, h, offset => by
      obtain ⟨hx, hxs⟩ := h
      obtain ⟨start, later, htokens⟩ := spelledAll_cons p offset x xs
      rw [htokens, List.filter_append, List.map_append, List.flatMap_cons,
        filter_unknown_spelled p x hx, filter_unknown_spelledAll p xs hxs]
end

theorem mem_strayWords {t : Formula} {token : Token} (h : token ∈ t.strayWords) :
    ∃ v, Binary64.isIntegral v = false ∧ token = .word (Number.constant v) := by
  obtain ⟨v, hv, rfl⟩ := List.mem_map.mp h
  exact ⟨v, by simpa using (List.mem_filter.mp hv).2, rfl⟩

/-- The first unknown word of a written formula is that of the first stray constant. -/
theorem find?_unknown_spelled (p : Placement) {t : Formula} (h : t.Over Registry.standard)
    {v : Float} (hv : t.constants.find? (fun v => !Binary64.isIntegral v) = some v) :
    ∃ offset, (t.spelled p 0).find? (unknown (.standard p)) =
      some ⟨.word (Number.constant v), offset⟩ := by
  have hfilter := congrArg List.head? (filter_unknown_spelled p t h 0)
  rw [strayWords, List.head?_map, List.head?_map, List.head?_filter, List.head?_filter, hv,
    Option.map_some] at hfilter
  cases hfind : (t.spelled p 0).find? (unknown (.standard p)) with
  | none => rw [hfind] at hfilter; cases hfilter
  | some q =>
      obtain ⟨token, offset⟩ := q
      rw [hfind] at hfilter
      cases hfilter
      exact ⟨offset, rfl⟩

/-- Among the tokens of a written formula the stray words are the unknown ones. -/
theorem find?_strayWords (p : Placement) {t : Formula} (h : t.Over Registry.standard) :
    (t.spelled p 0).find? (fun q => decide (q.token ∈ t.strayWords)) =
      (t.spelled p 0).find? (unknown (.standard p)) := by
  rw [← List.head?_filter, ← List.head?_filter]
  refine congrArg List.head? (List.filter_congr fun q hq => ?_)
  cases hunknown : unknown (.standard p) q with
  | true =>
      have hmem : q.token ∈ t.strayWords := by
        rw [← filter_unknown_spelled p t h 0]
        exact List.mem_map_of_mem (List.mem_filter.mpr ⟨hq, hunknown⟩)
      exact decide_eq_true hmem
  | false =>
      refine decide_eq_false fun hmem => ?_
      obtain ⟨v, hv, htoken⟩ := mem_strayWords hmem
      obtain ⟨token, offset⟩ := q
      obtain rfl : token = .word (Number.constant v) := htoken
      rw [unknown_constant, hv] at hunknown
      cases hunknown

theorem toList_toText (p : Placement) (t : Formula) : (t.toText p).toList = t.write p :=
  String.toList_ofList

/-- A written formula is read as itself, but for the signs of its zeros. -/
theorem parse_toText_eq {r : Registry} (p : Placement) {t : Formula} (h : t.Over r)
    (hintegral : ∀ v ∈ t.constants, Binary64.isIntegral v = true) :
    (Dialect.mk p r).parse (t.toText p) = .ok t.dropZeroSigns := by
  have hderives := derives_dropZeroSigns p t h hintegral 0
  rw [← tokensFrom_write p h] at hderives
  rw [Dialect.parse, toList_toText]
  exact Dialect.parseChars_of_derives hderives

/-- The first stray constant of a written formula is what the reader stops at. -/
theorem parse_of_stray (p : Placement) {t : Formula} (h : t.Over Registry.standard)
    {word : List Char} {offset : Nat}
    (hfind : (t.spelled p 0).find? (unknown (.standard p)) = some ⟨.word word, offset⟩) :
    (Dialect.standard p).parse (t.toText p) =
      .error ⟨.unknownToken (String.ofList word), offset⟩ := by
  have hstop := (scans_spelled p t h 0 []).stops word offset hfind
  have hcheck : (Dialect.standard p).check (t.write p) =
      .error ⟨.unknownToken (String.ofList word), offset⟩ := by
    rw [Dialect.check, tokensFrom_write p h, hstop]
    rfl
  rw [Dialect.check_eq] at hcheck
  rw [Dialect.parse, toList_toText]
  cases hparse : (Dialect.standard p).parseChars (t.write p) with
  | error e => rw [hparse] at hcheck; cases hcheck; rfl
  | ok u => rw [hparse] at hcheck; cases hcheck

/-- **Roundtrip.** A formula over a registry whose constants are integral is read back from either
bracketed form: what is read is equal to it and written alike. With the standard operations, if some
constant is not integral, the first such constant is an unknown token where it stands. -/
theorem parse_toText :
    (∀ (r : Registry) (t : Formula), t.Over r →
      (∀ v ∈ t.constants, Binary64.isIntegral v = true) → ∀ p : Placement,
        ∃ u, (Dialect.mk p r).parse (t.toText p) = .ok u ∧ u.same false t = true ∧
          (∀ q, u.toText q = t.toText q) ∧ u.toFlatText = t.toFlatText) ∧
    ∀ t : Formula, t.Over Registry.standard →
      (∃ v ∈ t.constants, Binary64.isIntegral v = false) → ∀ p : Placement,
        ∃ v offset, t.constants.find? (fun v => !Binary64.isIntegral v) = some v ∧
          (tokensFrom 0 (t.write p)).find? (fun q => decide (q.token ∈ t.strayWords)) =
            some ⟨.word (Number.constant v), offset⟩ ∧
          (Dialect.standard p).parse (t.toText p) =
            .error ⟨.unknownToken (String.ofList (Number.constant v)), offset⟩ := by
  constructor
  · intro r t h hintegral p
    have halike := alike_dropZeroSigns t hintegral
    refine ⟨t.dropZeroSigns, parse_toText_eq p h hintegral, halike.same, fun q => ?_, ?_⟩
    · exact congrArg String.ofList (halike.write q)
    · exact congrArg String.ofList halike.writeFlat
  · rintro t h ⟨stray, hmem, hstray⟩ p
    obtain ⟨v, hv⟩ : ∃ v, t.constants.find? (fun v => !Binary64.isIntegral v) = some v :=
      Option.isSome_iff_exists.mp (List.find?_isSome.mpr ⟨stray, hmem, by simp [hstray]⟩)
    obtain ⟨offset, hfind⟩ := find?_unknown_spelled p h hv
    refine ⟨v, offset, hv, ?_, parse_of_stray p h hfind⟩
    rw [tokensFrom_write p h, find?_strayWords p h, hfind]

/-- A product that is read back, and one with a constant that is not. -/
theorem parse_toText_product :
    (∃ u, (Dialect.mk .last Registry.standard).parse
        ((apply "*" [var "x", const (-7)]).toText .last) = .ok u ∧
      u.same false (apply "*" [var "x", const (-7)]) = true ∧
      (∀ q, u.toText q = (apply "*" [var "x", const (-7)]).toText q) ∧
      u.toFlatText = (apply "*" [var "x", const (-7)]).toFlatText) ∧
    ∃ v offset,
      (apply "*" [const 2, const 0.5]).constants.find? (fun v => !Binary64.isIntegral v) = some v ∧
      (tokensFrom 0 ((apply "*" [const 2, const 0.5]).write .first)).find?
          (fun q => decide (q.token ∈ (apply "*" [const 2, const 0.5]).strayWords)) =
        some ⟨.word (Number.constant v), offset⟩ ∧
      (Dialect.standard .first).parse ((apply "*" [const 2, const 0.5]).toText .first) =
        .error ⟨.unknownToken (String.ofList (Number.constant v)), offset⟩ := by
  have hknows : Registry.standard.Knows "*" 2 :=
    ⟨by decide, by decide, by decide, .exactly 2, by decide, by decide⟩
  have hover : ∀ x y, x.Over Registry.standard → y.Over Registry.standard →
      (apply "*" [x, y]).Over Registry.standard :=
    fun x y hx hy => ⟨hknows, hx, hy, trivial⟩
  have hname : (var "x").Over Registry.standard := by
    show "x" ∈ argumentNames
    decide
  have hvalue : ∀ v, (const v).Over Registry.standard := fun _ => trivial
  have hproduct : ∀ x y, (apply "*" [x, y]).constants = x.constants ++ y.constants := by
    intro x y
    rw [constants_eq]
    simp [constant?, operands]
  have hconst : ∀ v, (const v).constants = [v] := by
    intro v
    rw [constants_eq]
    rfl
  have hvar : (var "x").constants = [] := by
    rw [constants_eq]
    rfl
  refine ⟨parse_toText.1 _ _ (hover _ _ hname (hvalue _)) ?_ .last,
    parse_toText.2 _ (hover _ _ (hvalue _) (hvalue _)) ⟨0.5, ?_, by decide +kernel⟩ .first⟩
  · rw [hproduct, hvar, hconst]
    intro v hv
    rw [List.mem_singleton.mp hv]
    decide +kernel
  · rw [hproduct, hconst, hconst]
    exact List.mem_cons_of_mem _ List.mem_cons_self

end Formula
end Formulary
