import Formulary.Proofs.Derivative.Closure
import Formulary.Proofs.Reading.Rereading

/-!
# Literals that overflow

A reader makes sure that operations are known and have their operands, and that
names read arguments, but it takes a literal of any length. So a literal that is
past the largest double is all that can be wrong with a formula that was read,
whichever registry it was read with and wherever the operations stand
(`problems_of_parse`).
-/

namespace Formulary

/-- The sign and absolute value of a token that is a literal. -/
def Token.integer? : Token → Option (Bool × Nat)
  | .word text => Number.integer? text
  | _ => none

/-- The integers that the literals of a text spell, in order. -/
def integers (text : String) : List (Bool × Nat) := (tokens text.toList).filterMap Token.integer?

/-- What is said of an integer that is no finite double. -/
def overflowMessage? : Bool × Nat → Option String
  | (negative, n) =>
    if n < Binary64.countLimit then none
    else some (if negative then "non-finite constant -inf" else "non-finite constant inf")

theorem overflowMessage?_of_lt (negative : Bool) {n : Nat} (hn : n < Binary64.countLimit) :
    overflowMessage? (negative, n) = none := by
  rw [overflowMessage?, if_pos hn]

theorem overflowMessage?_of_le (negative : Bool) {n : Nat} (hn : Binary64.countLimit ≤ n) :
    overflowMessage? (negative, n) =
      some (if negative then "non-finite constant -inf" else "non-finite constant inf") := by
  rw [overflowMessage?, if_neg (Nat.not_lt.mpr hn)]

theorem overflowMessage?_eq_none_iff (i : Bool × Nat) :
    overflowMessage? i = none ↔ i.2 < Binary64.countLimit := by
  obtain ⟨negative, n⟩ := i
  rcases Nat.lt_or_ge n Binary64.countLimit with hn | hn
  · exact iff_of_true (overflowMessage?_of_lt negative hn) hn
  · rw [overflowMessage?_of_le negative hn]
    exact iff_of_false (Option.some_ne_none _) (Nat.not_lt.mpr hn)

theorem literals_eq (text : String) : literals text =
    (integers text).map fun (negative, n) => Binary64.ofRatio negative n 1 := by
  have htoken : Token.literal? =
      fun token => token.integer?.map fun (negative, n) => Binary64.ofRatio negative n 1 := by
    funext token
    cases token <;> rfl
  rw [literals, integers, htoken, List.map_filterMap]

/-- The double of an integer is named as the integer says, if it is not finite. -/
theorem message_nonFinite (negative : Bool) {n : Nat} (hn : Binary64.countLimit ≤ n) :
    (Problem.nonFinite (Binary64.ofRatio negative n 1)).message =
      if negative then "non-finite constant -inf" else "non-finite constant inf" := by
  rw [Binary64.ofRatio_of_countLimit_le negative hn]
  cases negative <;> decide

namespace Dialect

variable {d : Dialect} {text : String} {t : Formula}

/-- The problems of a formula that was read are its literals that are not finite. -/
theorem problems_eq_literals (h : d.parse text = .ok t) :
    t.problems d.registry = ((literals text).filter fun v => !v.isFinite).map .nonFinite := by
  have hderives := derives_of_parseChars h
  rw [problems_eq_of_derives hderives, constants_of_derives hderives, literals]

theorem messages_eq (h : d.parse text = .ok t) :
    (t.problems d.registry).map Problem.message = (integers text).filterMap overflowMessage? := by
  rw [problems_eq_literals h, literals_eq]
  induction integers text with
  | nil => rfl
  | cons i is ih =>
      obtain ⟨negative, n⟩ := i
      rw [List.map_cons]
      rcases Nat.lt_or_ge n Binary64.countLimit with hn | hn
      · have hfinite := (Binary64.isFinite_ofRatio_iff negative n).mpr hn
        rw [List.filter_cons_of_neg (by simp [hfinite]),
          List.filterMap_cons_none (overflowMessage?_of_lt negative hn), ih]
      · have hfinite : (Binary64.ofRatio negative n 1).isFinite = false := by
          rw [← Bool.not_eq_true, Binary64.isFinite_ofRatio_iff]
          exact Nat.not_lt.mpr hn
        rw [List.filter_cons_of_pos (by simp [hfinite]),
          List.filterMap_cons_some (overflowMessage?_of_le negative hn), List.map_cons,
          List.map_cons, message_nonFinite negative hn, ih]

/-- There is no problem just when there is nothing to say of a literal. -/
theorem problems_eq_nil_iff (h : d.parse text = .ok t) :
    t.problems d.registry = [] ↔ ∀ i ∈ integers text, i.2 < Binary64.countLimit := by
  rw [← List.map_eq_nil_iff (f := Problem.message), messages_eq h, List.filterMap_eq_nil_iff]
  exact forall₂_congr fun i _ => overflowMessage?_eq_none_iff i

/-- A formula that was read with the standard operations has no fault, overflowing literals or
not. -/
theorem faults_eq_nil {p : Placement} (h : (standard p).parse text = .ok t) : t.faults = [] := by
  have hproblems : t.problems Registry.standard = _ := problems_eq_literals h
  have hperm := Formula.faults_perm t
  rw [hproblems, List.filterMap_map] at hperm
  refine List.Perm.eq_nil ?_
  have hnone : ((literals text).filter fun v => !v.isFinite).filterMap
      (Problem.fault? ∘ Problem.nonFinite) = [] :=
    List.filterMap_eq_nil_iff.mpr fun v _ => rfl
  rwa [hnone] at hperm

end Dialect

namespace Formula

/-- **Invariant.** A formula that was read has one problem for each literal past the largest
double, in the order of the text, and no other. So it is valid just when no literal overflows, and
if it was read with the standard operations, it has a value at any three doubles and a derivative by
any name even if some do. -/
theorem problems_of_parse :
    (∀ (d : Dialect) (text : String) (t : Formula), d.parse text = .ok t →
      (t.problems d.registry).map Problem.message = (integers text).filterMap overflowMessage? ∧
      isValidIfAny d.registry none (some t) =
        .ok (decide (∀ i ∈ integers text, i.2 < Binary64.countLimit))) ∧
    ∀ (p : Placement) (text : String) (t : Formula), (Dialect.standard p).parse text = .ok t →
      (∀ x y z, ∃ g, t.evaluateAt [.number x, .number y, .number z] = .ok g) ∧
      ∀ v, ∃ d, t.derivative v = .ok d := by
  constructor
  · intro d text t h
    refine ⟨Dialect.messages_eq h, ?_⟩
    have hvalid := Dialect.problems_eq_nil_iff h
    rw [isValidIfAny, isValid]
    by_cases hproblems : t.problems d.registry = []
    · rw [if_neg (not_not_intro hproblems), decide_eq_true (hvalid.mp hproblems)]
    · rw [if_pos hproblems, decide_eq_false (mt hvalid.mpr hproblems)]
  · intro p text t h
    have hfaults := Dialect.faults_eq_nil h
    have hmade : t.MadeOf (.named t.names) :=
      (madeOf_named_iff _ t).mpr ⟨hfaults, fun _ hname => hname⟩
    refine ⟨exists_evaluateAt hfaults, fun v => ?_⟩
    obtain ⟨d, hd, -⟩ := hmade.derivative v
    exact ⟨d, hd⟩

/-- A minus sign and three hundred and ten digits. -/
def hugeWord : List Char := '-' :: List.replicate 310 '9'

/-- One divided by a word. -/
def quotientText (word : List Char) : String :=
  String.ofList ('(' :: (['/'] ++ ' ' :: (['1'] ++ ' ' :: (word ++ [')']))))

theorem tokens_quotientText {word : List Char} (h : IsWord word) :
    tokens (quotientText word).toList =
      [.opening, .word "/".toList, .word "1".toList, .word word, .closing] := by
  have hslash : IsWord ['/'] := by decide
  have hone : IsWord ['1'] := by decide
  rw [quotientText, String.toList_ofList, tokens, tokensFrom_opening,
    tokensFrom_word hslash (endsWord_space _), tokensFrom_space,
    tokensFrom_word hone (endsWord_space _), tokensFrom_space,
    tokensFrom_word h (endsWord_closing _), tokensFrom_closing]
  rfl

/-- A quotient by a literal that overflows. -/
theorem problems_of_parse_hugeQuotient :
    ((apply "/" [const 1, const Binary64.negInfinity]).problems Registry.standard).map
        Problem.message = ["non-finite constant -inf"] ∧
      isValidIfAny Registry.standard none
        (some (apply "/" [const 1, const Binary64.negInfinity])) = .ok false ∧
      (∀ x y z, ∃ g, (apply "/" [const 1, const Binary64.negInfinity]).evaluateAt
        [.number x, .number y, .number z] = .ok g) ∧
      ∀ v, ∃ d, (apply "/" [const 1, const Binary64.negInfinity]).derivative v = .ok d := by
  have hhuge : IsWord hugeWord := by decide +kernel
  have htokens := tokens_quotientText hhuge
  have hparse : (Dialect.standard .first).parse (quotientText hugeWord) =
      .ok (apply "/" [const 1, const Binary64.negInfinity]) := by
    have hword : (String.ofList hugeWord).toList = hugeWord := String.toList_ofList
    refine parse_quotient _ (String.ofList hugeWord) ?_ ?_
    · rw [htokens, hword]
    · rw [hword]
      decide +kernel
  have hintegers : integers (quotientText hugeWord) =
      [(false, 1), (true, Number.power 10 310 - 1)] := by
    rw [integers, htokens]
    decide +kernel
  obtain ⟨hmessages, hvalid⟩ := problems_of_parse.1 _ _ _ hparse
  rw [hintegers] at hmessages hvalid
  refine ⟨hmessages.trans (by decide +kernel), hvalid.trans ?_, problems_of_parse.2 _ _ _ hparse⟩
  have hlimit : ¬ Number.power 10 310 - 1 < Binary64.countLimit := by decide +kernel
  rw [decide_eq_false]
  exact fun hall => hlimit (hall (true, _) (List.mem_cons_of_mem _ List.mem_cons_self))

end Formula
end Formulary
