import Formulary.Proofs.Reading.Agreement
import Formulary.Proofs.Value.Faults

/-!
# Reading a formula again

The constants of a formula that was read are the literals of its text, and finite
literals are integral. So the formula is written and read again without an error,
and all that is lost are the signs of zeros (`evaluateAt_reread`). That is
enough to change what the formula computes, since a quotient by zero has the sign
of the zero.
-/

namespace Formulary

/-- The value of a token that is a literal. -/
def Token.literal? : Token → Option Float
  | .word text => Number.literal? text
  | _ => none

/-- The values of the literals of a text, in order. -/
def literals (text : String) : List Float := (tokens text.toList).filterMap Token.literal?

namespace Number

theorem isIntegral_of_literal? {word : List Char} {value : Float}
    (h : literal? word = some value) (hfinite : value.isFinite = true) :
    Binary64.isIntegral value = true := by
  obtain ⟨⟨negative, n⟩, -, rfl⟩ := Option.map_eq_some_iff.mp h
  exact Binary64.isIntegral_ofRatio hfinite

theorem dropZeroSign_of_ne {x : Float} (h : x ≠ Binary64.negZero) : dropZeroSign x = x := by
  rw [dropZeroSign]
  cases hbeq : x == 0 with
  | true => exact ((eq_zero_of_beq_zero hbeq).resolve_right h).symm
  | false => rfl

theorem isFinite_dropZeroSign {x : Float} (h : x.isFinite = true) :
    (dropZeroSign x).isFinite = true := by
  rw [dropZeroSign]
  split
  · decide
  · exact h

end Number

namespace Formula

theorem dropZeroSigns_apply (symbol : String) (xs : List Formula) :
    (apply symbol xs).dropZeroSigns = apply symbol (xs.map dropZeroSigns) := by
  have hall : ∀ xs : List Formula, dropZeroSignsAll xs = xs.map dropZeroSigns := by
    intro xs
    induction xs with
    | nil => rfl
    | cons x xs ih => rw [dropZeroSignsAll, ih, List.map_cons]
  rw [dropZeroSigns, hall]

theorem constants_dropZeroSigns (t : Formula) :
    t.dropZeroSigns.constants = t.constants.map Number.dropZeroSign := by
  induction t using operandsInduction with
  | const value => rw [dropZeroSigns, constants_eq, constants_eq]; rfl
  | var name => rw [dropZeroSigns, constants_eq]; rfl
  | apply symbol xs ih =>
      rw [dropZeroSigns_apply, constants_apply, constants_apply, List.flatMap_map,
        List.map_flatMap]
      exact List.flatMap_congr ih

/-- A formula without negative zeros has no sign to lose. -/
theorem dropZeroSigns_eq_self {t : Formula} (h : ∀ v ∈ t.constants, v ≠ Binary64.negZero) :
    t.dropZeroSigns = t := by
  induction t using operandsInduction with
  | const value =>
      have hvalue := h value (mem_constants_const value)
      rw [dropZeroSigns, Number.dropZeroSign_of_ne hvalue]
  | var name => rfl
  | apply symbol xs ih =>
      rw [constants_apply] at h
      have hoperands : xs.map dropZeroSigns = xs.map id := List.map_congr_left fun x hx =>
        ih x hx fun v hv => h v (List.mem_flatMap.mpr ⟨x, hx, hv⟩)
      rw [dropZeroSigns_apply, hoperands, List.map_id]

end Formula

/-! ## What derives from the grammar -/

/-- A word that is a literal means nothing else. -/
theorem literal?_eq_none_of_name {word : List Char} (h : String.ofList word ∈ argumentNames) :
    Number.literal? word = none := by
  cases hvalue : Number.literal? word with
  | none => rfl
  | some value =>
      have hmeans : WordMeans (.standard .first) word (.formula (.const value)) :=
        Formula.wordMeans_literal hvalue
      cases hmeans with
      | literal hname _ => exact absurd h hname

theorem literals_group (p : Placement) {word : List Char} (h : Number.literal? word = none)
    (inner : List Token) :
    (p.group word inner).filterMap Token.literal? = inner.filterMap Token.literal? := by
  cases p <;> simp [Placement.group, Token.literal?, List.filterMap_cons, h]

mutual
/-- The constants of a formula are the literals among its tokens. -/
theorem constants_of_derives {d : Dialect} {tokens : List Token} {t : Formula}
    (h : Derives d tokens t) : t.constants = tokens.filterMap Token.literal? := by
  cases h with
  | leaf hword =>
      rw [Formula.constants_eq]
      cases hword with
      | argument hname => simp [Token.literal?, literal?_eq_none_of_name hname, Formula.constant?,
          Formula.operands]
      | literal hname hvalue => simp [Token.literal?, hvalue, Formula.constant?, Formula.operands]
  | group hword harity hadmits hall =>
      cases hword with
      | operation hname hnone _ =>
          rw [Formula.constants_apply, constants_of_derivesAll hall, literals_group _ hnone]
theorem constants_of_derivesAll {d : Dialect} {tokens : List Token} {ts : List Formula}
    (h : DerivesAll d tokens ts) :
    ts.flatMap Formula.constants = tokens.filterMap Token.literal? := by
  cases h with
  | nil => rfl
  | cons ht hts =>
      rw [List.flatMap_cons, List.filterMap_append, constants_of_derives ht,
        constants_of_derivesAll hts]
end

mutual
/-- Only the constants of a formula that was read can be problems, if they are not finite. -/
theorem problems_eq_of_derives {d : Dialect} {tokens : List Token} {t : Formula}
    (h : Derives d tokens t) :
    t.problems d.registry = (t.constants.filter fun v => !v.isFinite).map .nonFinite := by
  cases h with
  | leaf hword =>
      rw [Formula.problems_eq, Formula.constants_eq]
      cases hword with
      | argument hname => simp [Formula.problem?, Formula.constant?, Formula.operands, hname]
      | @literal value hname hvalue =>
          cases hfinite : value.isFinite <;>
            simp [Formula.problem?, Formula.constant?, Formula.operands, hfinite]
  | @group _ symbol _ _ operands hword harity hadmits hall =>
      have hroot : Formula.problem? d.registry (.apply symbol operands) = none := by
        rw [Formula.problem?, harity]
        exact if_pos hadmits
      rw [Formula.problems_eq, Formula.constants_apply, hroot, Option.toList_none, List.nil_append]
      exact problems_eq_of_derivesAll hall
theorem problems_eq_of_derivesAll {d : Dialect} {tokens : List Token} {ts : List Formula}
    (h : DerivesAll d tokens ts) :
    ts.flatMap (Formula.problems d.registry) =
      ((ts.flatMap Formula.constants).filter fun v => !v.isFinite).map .nonFinite := by
  cases h with
  | nil => rfl
  | cons ht hts =>
      rw [List.flatMap_cons, List.flatMap_cons, List.filter_append, List.map_append,
        problems_eq_of_derives ht, problems_eq_of_derivesAll hts]
end

/-- A formula of finite constants has no problem if it was read with the standard operations. -/
theorem problems_of_derives {p : Placement} {tokens : List Token} {t : Formula}
    (h : Derives (.standard p) tokens t) (hfinite : ∀ v ∈ t.constants, v.isFinite = true) :
    t.problems Registry.standard = [] := by
  have hnone : (t.constants.filter fun v => !v.isFinite) = [] :=
    List.filter_eq_nil_iff.mpr fun v hv => by simp [hfinite v hv]
  have hproblems := problems_eq_of_derives h
  rw [hnone] at hproblems
  exact hproblems

namespace Formula

/-- **Reading again.** A formula that was read from a text of finite literals is written, read
again, and then the same but for the signs of its zeros. Both have a number for their value at any
three doubles, and that is the same number unless the negative zero is among the literals. -/
theorem evaluateAt_reread {p : Placement} {text : String} {t : Formula}
    (h : (Dialect.standard p).parse text = .ok t)
    (hfinite : ∀ v ∈ literals text, v.isFinite = true) :
    ∃ u, (Dialect.standard p).parse (t.toText p) = .ok u ∧ u = t.dropZeroSigns ∧
      ∀ x y z, ∃ g g' : Grid Float,
        t.evaluateAt [.number x, .number y, .number z] = .ok g ∧ g.IsSingle ∧
        u.evaluateAt [.number x, .number y, .number z] = .ok g' ∧ g'.IsSingle ∧
        (Binary64.negZero ∉ literals text → g' = g) := by
  have hderives := Dialect.derives_of_parseChars h
  have hconstants : t.constants = literals text := constants_of_derives hderives
  rw [← hconstants] at hfinite ⊢
  have hintegral : ∀ v ∈ t.constants, Binary64.isIntegral v = true := by
    intro v hv
    rw [hconstants] at hv
    obtain ⟨token, -, hvalue⟩ := List.mem_filterMap.mp hv
    cases token with
    | word word => exact Number.isIntegral_of_literal? hvalue (hfinite v (hconstants ▸ hv))
    | _ => cases hvalue
  have hproblems := problems_of_derives hderives hfinite
  have hread := parse_toText_eq p (over_of_problems t hproblems) hintegral
  have hproblems' : t.dropZeroSigns.problems Registry.standard = [] := by
    refine problems_of_derives (Dialect.derives_of_parseChars hread) fun v hv => ?_
    rw [constants_dropZeroSigns] at hv
    obtain ⟨w, hw, rfl⟩ := List.mem_map.mp hv
    exact Number.isFinite_dropZeroSign (hfinite w hw)
  refine ⟨t.dropZeroSigns, hread, rfl, fun x y z => ?_⟩
  obtain ⟨g, hg, hsingle⟩ := exists_single_evaluateAt (faults_eq_nil_of_problems hproblems) x y z
  obtain ⟨g', hg', hsingle'⟩ :=
    exists_single_evaluateAt (faults_eq_nil_of_problems hproblems') x y z
  refine ⟨g, g', hg, hsingle, hg', hsingle', fun hnegZero => ?_⟩
  have hsame : t.dropZeroSigns = t :=
    dropZeroSigns_eq_self fun v hv hzero => hnegZero (hzero ▸ hv)
  rw [hsame, hg, Except.ok.injEq] at hg'
  exact hg'.symm

/-- A quotient by a literal. -/
theorem parse_quotient (text word : String) {value : Float}
    (htokens : tokens text.toList =
      [.opening, .word "/".toList, .word "1".toList, .word word.toList, .closing])
    (h : Number.literal? word.toList = some value) :
    (Dialect.standard .first).parse text = .ok (apply "/" [const 1, const value]) := by
  refine Dialect.parseChars_of_derives ?_
  rw [htokens]
  have hone : Derives (.standard .first) [.word "1".toList] (const 1) :=
    .leaf (wordMeans_literal (by decide))
  exact .group (wordMeans_symbol (@knows_of_admits .divide 2 (by decide)))
    (by decide : Registry.standard.arity? "/" = some (.exactly 2)) rfl
    (.cons hone (.cons (.leaf (wordMeans_literal h)) .nil))

/-- One half, read again. -/
theorem evaluateAt_reread_half :
    ∃ u, (Dialect.standard .first).parse ((apply "/" [const 1, const 2]).toText .first) = .ok u ∧
      u = (apply "/" [const 1, const 2]).dropZeroSigns ∧
      ∀ x y z, ∃ g g' : Grid Float,
        (apply "/" [const 1, const 2]).evaluateAt [.number x, .number y, .number z] = .ok g ∧
        g.IsSingle ∧
        u.evaluateAt [.number x, .number y, .number z] = .ok g' ∧ g'.IsSingle ∧
        (Binary64.negZero ∉ literals "(/ 1 2)" → g' = g) :=
  evaluateAt_reread (parse_quotient "(/ 1 2)" "2" (by decide) (by decide +kernel))
    (by decide +kernel)

/-- A quotient by the negative zero changes its sign when it is read again. -/
theorem evaluateAt_reread_negZero :
    ∃ t u, (Dialect.standard .first).parse "(/ 1 -0)" = .ok t ∧
      (∀ v ∈ literals "(/ 1 -0)", v.isFinite = true) ∧
      (Dialect.standard .first).parse (t.toText .first) = .ok u ∧
      Binary64.negInfinity ≠ Binary64.posInfinity ∧
      ∀ x y z,
        t.evaluateAt [.number x, .number y, .number z] =
          .ok (Grid.scalar Binary64.negInfinity) ∧
        u.evaluateAt [.number x, .number y, .number z] =
          .ok (Grid.scalar Binary64.posInfinity) := by
  have hnegative : Float.div 1 Binary64.negZero = Binary64.negInfinity := by decide +kernel
  have hpositive : Float.div 1 0 = Binary64.posInfinity := by decide +kernel
  have htext : (apply "/" [const 1, const Binary64.negZero]).toText .first = "(/ 1 0)" := by
    decide +kernel
  refine ⟨apply "/" [const 1, const Binary64.negZero], apply "/" [const 1, const 0],
    parse_quotient "(/ 1 -0)" "-0" (by decide) (by decide +kernel), by decide +kernel, ?_,
    by decide +kernel, fun x y z => ⟨?_, ?_⟩⟩
  · rw [htext]
    exact parse_quotient "(/ 1 0)" "0" (by decide) (by decide +kernel)
  · rw [← hnegative]
    rfl
  · rw [← hpositive]
    rfl

end Formula
end Formulary
