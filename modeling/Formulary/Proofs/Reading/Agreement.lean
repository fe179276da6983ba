import Formulary.Proofs.Formula.LeftSpine
import Formulary.Proofs.Number.Counts
import Formulary.Proofs.Reading.Conservation
import Formulary.Proofs.Reading.Roundtrip
import Formulary.Proofs.Reading.Unbracketed

/-!
# Reading without brackets

What the brackets of a text with the operations last are needed for. Without
them the words are reduced on a stack, where an operation of any number of
operands takes all there is. It finds just its own operands when nothing is on
the stack before them, and that is so as long as it is on the left spine. If it
is not, what comes out cannot be the formula that was meant, since a stack never
holds such an operation anywhere else (`step_firstOnly`).
-/

namespace Formulary

theorem leaf?_of_wordMeans {d : Dialect} {word : List Char} {t : Formula}
    (h : WordMeans d word (.formula t)) : leaf? word = some t := by
  cases h with
  | argument hname => simp [leaf?, hname]
  | literal hname hvalue => simp [leaf?, hname, hvalue]

/-- A leaf is no operation. -/
theorem without_of_leaf? {word : List Char} {t : Formula} (h : leaf? word = some t)
    {p : String → Prop} : t.Without p := by
  rw [leaf?] at h
  split at h
  · cases h
    exact Formula.without_of_operands rfl rfl
  · obtain ⟨value, -, rfl⟩ := Option.map_eq_some_iff.mp h
    exact Formula.without_of_operands rfl rfl

/-! ## What an operation finds on the stack -/

namespace Registry

/-- A symbol of an operation of any number of operands. -/
def IsVariadic (r : Registry) (symbol : String) : Prop := r.arity? symbol = some .variadic

/-- A registry none of whose symbols is a name or a literal. -/
def Apart (r : Registry) : Prop :=
  ∀ word arity, r.arity? (String.ofList word) = some arity → leaf? word = none

theorem standard_arity?_eq_some_iff {symbol : String} {arity : Arity} :
    standard.arity? symbol = some arity ↔ ∃ op : Operation, op.symbol = symbol ∧ op.arity = arity := by
  rw [standard_arity?, Option.map_eq_some_iff]
  constructor
  · rintro ⟨op, hop, harity⟩
    exact ⟨op, Operation.symbol_of_ofSymbol? hop, harity⟩
  · rintro ⟨op, rfl, harity⟩
    exact ⟨op, Operation.ofSymbol?_symbol op, harity⟩

theorem standard_isVariadic_iff {symbol : String} :
    standard.IsVariadic symbol ↔ symbol = "mean" ∨ symbol = "var" := by
  rw [IsVariadic, standard_arity?_eq_some_iff]
  constructor
  · rintro ⟨op, rfl, harity⟩
    cases op with
    | mean => exact .inl rfl
    | variance => exact .inr rfl
    | _ => cases harity
  · rintro (rfl | rfl)
    · exact ⟨.mean, rfl, rfl⟩
    · exact ⟨.variance, rfl, rfl⟩

/-- The standard operations are words that mean nothing else. -/
theorem standard_apart : standard.Apart := by
  intro word arity h
  obtain ⟨op, hop, -⟩ := standard_arity?_eq_some_iff.mp h
  have hword : word = op.symbol.toList := by rw [hop, String.toList_ofList]
  have hnone : (leaf? op.symbol.toList).isNone = true := by cases op <;> decide
  rw [hword, ← Option.isNone_iff_eq_none, hnone]

end Registry

namespace Flat

variable {r : Registry}

/-- An operation finds its operands when it has their number, or when they are all there is. -/
theorem takeCount_of_admits {arity : Arity} {count height : Nat} (h : arity.admits count = true)
    (hvariadic : arity = .variadic → height = 0) : takeCount arity (count + height) = count := by
  cases arity with
  | variadic => rw [hvariadic rfl, takeCount, Nat.add_zero]
  | exactly k =>
      have hk : k = count := by
        simp only [Arity.admits, Bool.and_eq_true, beq_iff_eq] at h
        exact h.2
      rw [takeCount, hk, if_pos (Nat.le_add_right _ _)]

namespace Reduction

theorem reduce_operands {symbol : String} {arity : Arity} {s : Reduction} {xs : List Formula}
    (h : takeCount arity (xs.length + s.stack.length) = xs.length) :
    { s with stack := xs.reverse ++ s.stack }.reduce symbol arity =
      { s with stack := .apply symbol xs :: s.stack } := by
  have hheight : (xs.reverse ++ s.stack).length = xs.length + s.stack.length := by
    rw [List.length_append, List.length_reverse]
  simp only [reduce, hheight, h]
  rw [List.take_left' (List.length_reverse ..), List.drop_left' (List.length_reverse ..),
    List.reverse_reverse]

/-! ## Where operations of any number of operands end up -/

/-- **Step.** On a stack only the bottom has operations of any number of operands, and only on its
left spine. -/
theorem step_firstOnly (s : Reduction) (word : List Char)
    (h : Formula.FirstOnly r.IsVariadic s.stack.reverse) :
    Formula.FirstOnly r.IsVariadic (s.step r word).stack.reverse := by
  cases harity : r.arity? (String.ofList word) with
  | some arity =>
      rw [step_of_arity? harity, reduce, List.reverse_cons, Formula.firstOnly_concat_apply,
        ← List.reverse_append, List.take_append_drop]
      refine ⟨h, fun hne hvariadic => hne ?_⟩
      -- an operation of any number of operands leaves nothing before it
      obtain rfl : arity = .variadic := Option.some.inj (harity.symm.trans hvariadic)
      rw [takeCount, List.drop_length, List.reverse_nil]
  | none =>
      cases hleaf : leaf? word with
      | none =>
          rw [step_of_leaf?_eq_none harity hleaf]
          exact h
      | some t =>
          rw [step_of_leaf? harity hleaf, List.reverse_cons]
          exact h.concat (without_of_leaf? hleaf)

/-- **Run.** So it is on the stack at any time. -/
theorem run_firstOnly (ws : List (List Char)) :
    Formula.FirstOnly r.IsVariadic (run r ws).stack.reverse := by
  have h : ∀ s : Reduction, Formula.FirstOnly r.IsVariadic s.stack.reverse →
      Formula.FirstOnly r.IsVariadic (ws.foldl (step r) s).stack.reverse := by
    induction ws with
    | nil => exact fun s hs => hs
    | cons w ws ih => exact fun s hs => ih (s.step r w) (step_firstOnly s w hs)
  exact h empty trivial

/-- Whatever a flat text is read as has operations of any number of operands on its left spine
only. -/
theorem onLeftSpine_of_getLast? {ws : List (List Char)} {t : Formula}
    (h : (run r ws).stack.getLast? = some t) : t.OnLeftSpine r.IsVariadic := by
  have hrun := run_firstOnly (r := r) ws
  rw [← List.head?_reverse] at h
  cases hstack : (run r ws).stack.reverse with
  | nil =>
      rw [hstack] at h
      cases h
  | cons u us =>
      rw [hstack] at h hrun
      cases h
      exact hrun.1

/-! ## Reading what derives from the grammar -/

mutual
/-- The words of a formula push it, if that leaves the stack as it ought to be. -/
theorem foldl_of_derives (hr : r.Apart) {tokens : List Token} {t : Formula}
    (h : Derives ⟨.last, r⟩ tokens t) (s : Reduction)
    (hstack : Formula.FirstOnly r.IsVariadic (s.stack.reverse ++ [t])) :
    (wordsOf tokens).foldl (step r) s = { s with stack := t :: s.stack } := by
  cases h with
  | @leaf word _ hword =>
      have hleaf := leaf?_of_wordMeans hword
      have harity : r.arity? (String.ofList word) = none := by
        cases harity : r.arity? (String.ofList word) with
        | none => rfl
        | some arity => rw [hr word arity harity] at hleaf; cases hleaf
      exact step_of_leaf? harity hleaf s
  | @group word symbol arity inner operands hword harity hadmits hall =>
      cases hword with
      | operation hname hliteral hregistered =>
          rw [Formula.firstOnly_concat_apply] at hstack
          obtain ⟨hstack, hbottom⟩ := hstack
          have hheight : arity = .variadic → s.stack.length = 0 := by
            rintro rfl
            by_contra hne
            refine hbottom ?_ harity
            rw [ne_eq, List.reverse_eq_nil_iff, ← List.length_eq_zero_iff]
            exact hne
          have hoperands := foldl_of_derivesAll hr hall s hstack
          simp only [Placement.group, List.cons_append, List.nil_append, wordsOf_opening,
            wordsOf_append, wordsOf_word, wordsOf_closing, List.foldl_append, hoperands]
          exact (step_of_arity? harity _).trans
            (reduce_operands (takeCount_of_admits hadmits hheight))
theorem foldl_of_derivesAll (hr : r.Apart) {tokens : List Token} {ts : List Formula}
    (h : DerivesAll ⟨.last, r⟩ tokens ts) (s : Reduction)
    (hstack : Formula.FirstOnly r.IsVariadic (s.stack.reverse ++ ts)) :
    (wordsOf tokens).foldl (step r) s = { s with stack := ts.reverse ++ s.stack } := by
  cases h with
  | nil => rfl
  | @cons here later t ts ht hts =>
      have happ : s.stack.reverse ++ t :: ts = (s.stack.reverse ++ [t]) ++ ts := by
        rw [List.append_assoc, List.singleton_append]
      rw [happ] at hstack
      have hpushed := foldl_of_derives hr ht s hstack.left
      rw [← List.reverse_cons] at hstack
      rw [wordsOf_append, List.foldl_append, hpushed,
        foldl_of_derivesAll hr hts { s with stack := t :: s.stack } hstack, List.reverse_cons,
        List.append_assoc, List.singleton_append]
end

/-- A formula with operations of any number of operands on its left spine is all that its words
leave on the stack. -/
theorem stack_of_derives (hr : r.Apart) {tokens : List Token} {t : Formula}
    (h : Derives ⟨.last, r⟩ tokens t) (hspine : t.OnLeftSpine r.IsVariadic) :
    (run r (wordsOf tokens)).stack = [t] := by
  rw [run, foldl_of_derives hr h empty (Formula.firstOnly_singleton.mpr hspine)]
  rfl

end Reduction
end Flat

/-! ## Formulas that are the same as themselves -/

mutual
/-- What derives from the grammar has numbers for constants, so that it is the same as itself. -/
theorem same_self_of_derives {d : Dialect} {tokens : List Token} {t : Formula}
    (h : Derives d tokens t) : t.same false t = true := by
  cases h with
  | @leaf word _ hword =>
      cases hword with
      | argument hname => rw [Formula.same, beq_self_eq_true]
      | literal hname hvalue =>
          obtain ⟨n, -, rfl⟩ := Option.map_eq_some_iff.mp hvalue
          rw [Formula.same, Formula.sameValue, Binary64.ofRatio_beq_self, Bool.true_or]
  | group hword harity hadmits hall =>
      rw [Formula.same, beq_self_eq_true, Bool.true_and]
      exact sameAll_self_of_derivesAll hall
theorem sameAll_self_of_derivesAll {d : Dialect} {tokens : List Token} {ts : List Formula}
    (h : DerivesAll d tokens ts) : Formula.sameAll false ts ts = true := by
  cases h with
  | nil => rfl
  | cons ht hts =>
      rw [Formula.sameAll, same_self_of_derives ht, sameAll_self_of_derivesAll hts, Bool.and_self]
end

/-! ## The flat form of a valid formula -/

namespace Formula

theorem knows_of_admits {op : Operation} {count : Nat} (h : op.arity.admits count = true) :
    Registry.standard.Knows op.symbol count := by
  have harity : Registry.standard.arity? op.symbol = some op.arity :=
    Registry.standard_arity?_eq_some_iff.mpr ⟨op, rfl, rfl⟩
  refine ⟨?_, ?_, ?_, op.arity, harity, h⟩
  · cases op <;> decide
  · cases op <;> decide
  · cases op <;> decide

mutual
/-- A valid formula is one over the arguments and the standard operations. -/
theorem over_of_problems : (t : Formula) → t.problems Registry.standard = [] →
    t.Over Registry.standard
  | .const value, _ => trivial
  | .var name, h => by
      obtain ⟨hroot, -⟩ := (problems_eq_nil_iff _ _).mp h
      show name ∈ argumentNames
      by_contra hname
      simp [problem?, hname] at hroot
  | .apply symbol xs, h => by
      obtain ⟨hroot, hxs⟩ := (problems_eq_nil_iff _ _).mp h
      obtain ⟨op, hop, hadmits⟩ := problem?_apply_eq_none_iff.mp hroot
      have hsymbol := Operation.symbol_of_ofSymbol? hop
      exact ⟨hsymbol ▸ knows_of_admits hadmits, overAll_of_problems xs hxs⟩
theorem overAll_of_problems : (xs : List Formula) →
    (∀ x ∈ xs, x.problems Registry.standard = []) → OverAll Registry.standard xs
  | [], _ => trivial
  | x :: xs, h =>
      have hparts := List.forall_mem_cons.mp h
      ⟨over_of_problems x hparts.1, overAll_of_problems xs hparts.2⟩
end

end Formula

namespace Flat

open Formula

/-- The operations of any number of operands among the standard ones. -/
theorem onLeftSpine_standard {t : Formula} :
    t.OnLeftSpine Registry.standard.IsVariadic ↔
      t.OnLeftSpine fun symbol => symbol = "mean" ∨ symbol = "var" := by
  simp only [OnLeftSpine, Registry.standard_isVariadic_iff]

/-- **Agreement.** A text with the operations last and the same text with spaces for its brackets
are read as the same formula just when every mean and every variance of that formula is reached
through first operands only. So a valid formula with integral constants and without means and
variances is read back from its flat form. -/
theorem parse_unbracketed_iff :
    (∀ (text : String) (t : Formula), (Dialect.standard .last).parse text = .ok t →
      ((∃ u, (parse Registry.standard (String.ofList (unbracketed text.toList))).formula? = some u ∧
          u.same false t = true) ↔
        t.OnLeftSpine fun symbol => symbol = "mean" ∨ symbol = "var")) ∧
    ∀ u : Formula, u.problems Registry.standard = [] →
      (∀ v ∈ u.constants, Binary64.isIntegral v = true) →
      "mean" ∉ u.symbols → "var" ∉ u.symbols →
      ∃ w, (parse Registry.standard u.toFlatText).formula? = some w ∧ w.same false u = true := by
  have hapart := Registry.standard_apart
  constructor
  · intro text t ht
    have hderives := Dialect.derives_of_parseChars ht
    have hwords : (parse Registry.standard (String.ofList (unbracketed text.toList))).formula? =
        (Reduction.run Registry.standard (wordsOf (tokens text.toList))).stack.getLast? := by
      rw [parse, String.toList_ofList, words_unbracketed 0]
      rfl
    rw [hwords, ← onLeftSpine_standard]
    constructor
    · rintro ⟨u, hu, hsame⟩
      exact (onLeftSpine_iff_of_same hsame).mp (Reduction.onLeftSpine_of_getLast? hu)
    · intro hspine
      refine ⟨t, ?_, same_self_of_derives hderives⟩
      rw [Reduction.stack_of_derives hapart hderives hspine]
      rfl
  · intro u hvalid hintegral hmean hvar
    have hover := over_of_problems u hvalid
    have halike := alike_dropZeroSigns u hintegral
    have hspine : u.dropZeroSigns.OnLeftSpine Registry.standard.IsVariadic := by
      rw [onLeftSpine_iff_of_same halike.same, onLeftSpine_standard]
      refine (without_of_symbols fun symbol hsymbol => ?_).onLeftSpine
      rintro (rfl | rfl)
      · exact hmean hsymbol
      · exact hvar hsymbol
    refine ⟨u.dropZeroSigns, ?_, halike.same⟩
    have hstack := Reduction.stack_of_derives hapart
      (derives_dropZeroSigns .last u hover hintegral 0) hspine
    rw [wordsOf_spelled] at hstack
    rw [parse, toFlatText, String.toList_ofList, words_writeFlat hover]
    simp only [hstack, List.getLast?_singleton]

/-- A mean that is the first operand of a product, and a quotient read back from its flat form. -/
theorem parse_unbracketed_iff_meanTimesTwo :
    ((∃ u, (parse Registry.standard
          (String.ofList (unbracketed "((x y mean)2 *)".toList))).formula? = some u ∧
        u.same false (apply "*" [apply "mean" [var "x", var "y"], const 2]) = true) ↔
      (apply "*" [apply "mean" [var "x", var "y"], const 2]).OnLeftSpine
        fun symbol => symbol = "mean" ∨ symbol = "var") ∧
    ∃ w, (parse Registry.standard (apply "/" [const 3, var "z"]).toFlatText).formula? = some w ∧
      w.same false (apply "/" [const 3, var "z"]) = true := by
  have hname : ∀ {name : String}, name ∈ argumentNames →
      Derives (.standard .last) [.word name.toList] (var name) :=
    fun h => .leaf (wordMeans_name h)
  have htwo : Derives (.standard .last) [.word "2".toList] (const 2) :=
    .leaf (wordMeans_literal (by decide +kernel))
  have hmean : Derives (.standard .last)
      [.opening, .word "x".toList, .word "y".toList, .word "mean".toList, .closing]
      (apply "mean" [var "x", var "y"]) :=
    .group (wordMeans_symbol (@knows_of_admits .mean 2 (by decide)))
      (by decide : Registry.standard.arity? "mean" = some .variadic) (by decide)
      (.cons (hname (by decide)) (.cons (hname (by decide)) .nil))
  have htext : (Dialect.standard .last).parse "((x y mean)2 *)" =
      .ok (apply "*" [apply "mean" [var "x", var "y"], const 2]) :=
    Dialect.parseChars_of_derives
      (.group (wordMeans_symbol (@knows_of_admits .times 2 (by decide)))
        (by decide : Registry.standard.arity? "*" = some (.exactly 2)) (by decide)
        (.cons hmean (.cons htwo .nil)))
  refine ⟨parse_unbracketed_iff.1 _ _ htext,
    parse_unbracketed_iff.2 _ (by decide +kernel) (by decide +kernel) (by decide +kernel)
      (by decide +kernel)⟩

example : (parse Registry.standard "x y z mean *").formula?.map (·.toText .first) =
    some "(* (mean x y z))" := by decide +kernel

end Flat
end Formulary
