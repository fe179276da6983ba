import Formulary.Proofs.Reading.Rereading

/-!
# Reading what a flat text was read as

The formula at the bottom of the stack was all there was when its last word was read
(`exists_front`). So its flat form is the words that mean something up to there, with
the literals among them rewritten, and reading these does over again what was done
before, operations that lack operands included (`run_rewritten`). All that is lost are
the signs of zeros.
-/

namespace Formulary.Flat

variable {r : Registry}

/-- What a word is that means something: a symbol, a name or a literal. -/
theorem recognised_cases {word : List Char} (h : recognised r word = true) :
    (∃ arity, r.arity? (String.ofList word) = some arity ∧ rewritten r word = word) ∨
      (r.arity? (String.ofList word) = none ∧ String.ofList word ∈ argumentNames ∧
        leaf? word = some (.var (String.ofList word)) ∧ rewritten r word = word) ∨
      (r.arity? (String.ofList word) = none ∧ ∃ v, Number.literal? word = some v ∧
        leaf? word = some (.const v) ∧ rewritten r word = Number.constant v) := by
  cases harity : r.arity? (String.ofList word) with
  | some arity => exact .inl ⟨arity, rfl, by simp [rewritten, harity]⟩
  | none =>
      by_cases hname : String.ofList word ∈ argumentNames
      · exact .inr (.inl ⟨rfl, hname, by simp [leaf?, hname], by simp [rewritten, hname]⟩)
      · have hinteger : (Number.integer? word).isSome = true := by
          simpa [recognised, harity, hname] using h
        obtain ⟨n, hn⟩ := Option.isSome_iff_exists.mp hinteger
        have hvalue : Number.literal? word = some (Binary64.ofRatio n.1 n.2 1) := by
          rw [Number.literal?, hn, Option.map_some]
        exact .inr (.inr ⟨rfl, _, hvalue, by simp [leaf?, hname, hvalue],
          by simp [rewritten, harity, hname, hvalue]⟩)

namespace Reduction

theorem run_concat (ws : List (List Char)) (word : List Char) :
    run r (ws ++ [word]) = (run r ws).step r word :=
  List.foldl_concat ..

/-! ## The bottom of the stack -/

/-- What a step does to the stack: it stays as it is, or there is a new item on what is left of
it. -/
theorem step_stack (s : Reduction) (word : List Char) :
    (s.step r word).stack = s.stack ∨
      ∃ t left, left <:+ s.stack ∧ (s.step r word).stack = t :: left := by
  cases harity : r.arity? (String.ofList word) with
  | some arity =>
      rw [step_of_arity? harity]
      exact .inr ⟨_, _, List.drop_suffix _ _, rfl⟩
  | none =>
      cases hleaf : leaf? word with
      | some t =>
          rw [step_of_leaf? harity hleaf]
          exact .inr ⟨t, s.stack, List.suffix_rfl, rfl⟩
      | none =>
          rw [step_of_leaf?_eq_none harity hleaf]
          exact .inl rfl

/-- **Bottom.** The item at the bottom of the stack was the only one when its last word was
read. -/
theorem exists_front {ws : List (List Char)} {t : Formula}
    (h : (run r ws).stack.getLast? = some t) :
    ∃ front, front <+: ws ∧ (run r front).stack = [t] := by
  induction ws using List.reverseRecOn with
  | nil => cases h
  | append_singleton ws word ih =>
      have hearlier : (run r ws).stack.getLast? = some t →
          ∃ front, front <+: ws ++ [word] ∧ (run r front).stack = [t] := by
        intro hlast
        obtain ⟨front, hfront, hstack⟩ := ih hlast
        exact ⟨front, hfront.trans (List.prefix_append _ _), hstack⟩
      rw [run_concat] at h
      rcases step_stack (r := r) (run r ws) word with hstack | ⟨u, left, hleft, hstack⟩
      · exact hearlier (hstack ▸ h)
      · rw [hstack] at h
        cases left with
        | nil =>
            obtain rfl : u = t := Option.some.inj h
            exact ⟨ws ++ [word], List.prefix_rfl, by rw [run_concat, hstack]⟩
        | cons v left =>
            -- what is below the new item was there before
            obtain ⟨above, habove⟩ := hleft
            rw [List.getLast?_cons_cons] at h
            refine hearlier ?_
            rw [← habove, List.getLast?_append, h, Option.some_or]

/-! ## The constants on the stack -/

/-- The constants of what is on the stack, from bottom to top. -/
def constants (s : Reduction) : List Float := s.stack.reverse.flatMap Formula.constants

theorem constants_push (s : Reduction) (t : Formula) :
    constants { s with stack := t :: s.stack } = s.constants ++ t.constants :=
  flatMap_push s t

/-- An operation gathers the constants of its operands. -/
theorem constants_reduce (s : Reduction) (symbol : String) (arity : Arity) :
    (s.reduce symbol arity).constants = s.constants := by
  have hadded := flatMap_reduce (f := Formula.constants) (fun _ => [])
    (fun symbol xs => by rw [Formula.constants_apply, List.append_nil]) s symbol arity
  rwa [List.append_nil] at hadded

theorem literal?_eq_none_of_leaf? {word : List Char} (h : leaf? word = none) :
    Number.literal? word = none := by
  rw [leaf?] at h
  split at h
  · cases h
  · exact Option.map_eq_none_iff.mp h

theorem constants_of_leaf? {word : List Char} {t : Formula} (h : leaf? word = some t) :
    t.constants = (Number.literal? word).toList := by
  rw [leaf?] at h
  split at h
  · next hname =>
      cases h
      rw [literal?_eq_none_of_name (List.contains_iff_mem.mp hname), Formula.constants_eq]
      rfl
  · obtain ⟨value, hvalue, rfl⟩ := Option.map_eq_some_iff.mp h
    rw [hvalue, Formula.constants_eq]
    rfl

theorem constants_step (hr : r.Apart) (s : Reduction) (word : List Char) :
    (s.step r word).constants = s.constants ++ (Number.literal? word).toList := by
  cases harity : r.arity? (String.ofList word) with
  | some arity =>
      rw [step_of_arity? harity, constants_reduce,
        literal?_eq_none_of_leaf? (hr word arity harity)]
      exact (List.append_nil _).symm
  | none =>
      cases hleaf : leaf? word with
      | some t => rw [step_of_leaf? harity hleaf, constants_push, constants_of_leaf? hleaf]
      | none =>
          rw [step_of_leaf?_eq_none harity hleaf, literal?_eq_none_of_leaf? hleaf]
          exact (List.append_nil _).symm

/-- The constants on the stack are the literals that were read. -/
theorem constants_run (hr : r.Apart) (ws : List (List Char)) :
    (run r ws).constants = ws.filterMap Number.literal? := by
  induction ws using List.reverseRecOn with
  | nil => rfl
  | append_singleton ws word ih =>
      rw [run_concat, constants_step hr, ih, List.filterMap_append]
      cases hvalue : Number.literal? word <;> simp [hvalue]

/-! ## Reading the words again -/

/-- A reduction without the signs of its zeros, and without the words set aside. -/
def dropZeroSigns (s : Reduction) : Reduction := ⟨s.stack.map Formula.dropZeroSigns, []⟩

/-- How many operands an operation finds is a matter of the height of the stack only. -/
theorem reduce_dropZeroSigns (s : Reduction) (symbol : String) (arity : Arity) :
    s.dropZeroSigns.reduce symbol arity = (s.reduce symbol arity).dropZeroSigns := by
  simp only [reduce, dropZeroSigns, List.length_map, List.map_cons, Formula.dropZeroSigns_apply,
    List.map_take, List.map_drop, List.map_reverse]

/-- **Step.** A word that means something has the effect of the word that it is rewritten as. -/
theorem step_rewritten (hr : r.Apart) (s : Reduction) {word : List Char}
    (hword : recognised r word = true)
    (hfinite : ∀ v, Number.literal? word = some v → v.isFinite = true) :
    s.dropZeroSigns.step r (rewritten r word) = (s.step r word).dropZeroSigns := by
  rcases recognised_cases hword with ⟨arity, harity, hrewritten⟩ |
      ⟨harity, -, hleaf, hrewritten⟩ | ⟨harity, v, hvalue, hleaf, hrewritten⟩
  · rw [hrewritten, step_of_arity? harity, step_of_arity? harity, reduce_dropZeroSigns]
  · rw [hrewritten, step_of_leaf? harity hleaf, step_of_leaf? harity hleaf]
    rfl
  · -- the text of the constant is a literal again, and so it is no symbol
    have hagain := leaf?_of_wordMeans (Formula.wordMeans_literal (r := r) (p := .last)
      (Number.literal?_constant_eq (Number.isIntegral_of_literal? hvalue (hfinite v hvalue))))
    have harity' : r.arity? (String.ofList (Number.constant v)) = none := by
      by_contra hsome
      obtain ⟨arity, hsymbol⟩ := Option.ne_none_iff_exists'.mp hsome
      cases (hr _ arity hsymbol).symm.trans hagain
    rw [hrewritten, step_of_leaf? harity hleaf, step_of_leaf? harity' hagain]
    rfl

/-- A word that is set aside leaves the stack alone. -/
theorem dropZeroSigns_step_of_not_recognised (s : Reduction) {word : List Char}
    (hword : recognised r word = false) :
    (s.step r word).dropZeroSigns = s.dropZeroSigns := by
  simp only [recognised, Bool.or_eq_false_iff, Option.isSome_eq_false_iff,
    Option.isNone_iff_eq_none] at hword
  obtain ⟨⟨harity, hname⟩, hinteger⟩ := hword
  have hleaf : leaf? word = none := by
    rw [leaf?, if_neg (Bool.eq_false_iff.mp hname), Number.literal?, hinteger]
    rfl
  rw [step_of_leaf?_eq_none harity hleaf]
  rfl

/-- **Run.** To read the words that mean something, the literals among them rewritten, is to do the
same again. -/
theorem run_rewritten (hr : r.Apart) (ws : List (List Char))
    (hfinite : ∀ v ∈ (run r ws).constants, v.isFinite = true) :
    run r ((ws.filter (recognised r)).map (rewritten r)) = (run r ws).dropZeroSigns := by
  rw [constants_run hr] at hfinite
  induction ws using List.reverseRecOn with
  | nil => rfl
  | append_singleton ws word ih =>
      rw [List.filterMap_append, List.forall_mem_append] at hfinite
      obtain ⟨hearlier, hlast⟩ := hfinite
      rw [run_concat, List.filter_append, List.map_append]
      cases hword : recognised r word with
      | true =>
          have hvalue : ∀ v, Number.literal? word = some v → v.isFinite = true := by
            intro v hv
            exact hlast v (by simp [hv])
          rw [List.filter_cons_of_pos hword, List.filter_nil, List.map_singleton, run_concat,
            ih hearlier, step_rewritten hr _ hword hvalue]
      | false =>
          rw [dropZeroSigns_step_of_not_recognised _ hword, ← ih hearlier,
            List.filter_cons_of_neg (by simp [hword]), List.filter_nil, List.map_nil,
            List.append_nil]

end Reduction

/-! ## Whole texts -/

/-- Among the standard operations a word is written as a word. -/
theorem isWord_rewritten {word : List Char}
    (h : recognised Registry.standard word = true) : IsWord (rewritten Registry.standard word) := by
  rcases recognised_cases h with ⟨arity, harity, hrewritten⟩ | ⟨-, hname, -, hrewritten⟩ |
      ⟨-, v, -, -, hrewritten⟩
  · obtain ⟨op, hop, -⟩ := Registry.standard_arity?_eq_some_iff.mp harity
    have hsymbol : op.symbol.toList = word := by rw [hop, String.toList_ofList]
    rw [hrewritten, ← hsymbol]
    cases op <;> decide
  · have hword := Formula.isWord_of_mem_argumentNames hname
    rwa [String.toList_ofList, ← hrewritten] at hword
  · rw [hrewritten]
    exact Number.isWord_constant v

/-- **Idempotence.** Whatever a flat text is read as, its flat form is read as the same, as long as
its constants are finite: nothing is set aside, and nothing is left over on the stack. -/
theorem parse_toFlatText {text : String} {t : Formula}
    (h : (parse Registry.standard text).formula? = some t)
    (hfinite : ∀ v ∈ t.constants, v.isFinite = true) :
    ∃ u, (parse Registry.standard t.toFlatText).formula? = some u ∧ u.same false t = true ∧
      (parse Registry.standard t.toFlatText).height = 1 ∧
      (parse Registry.standard t.toFlatText).ignored = [] := by
  have hapart := Registry.standard_apart
  obtain ⟨front, -, hstack⟩ := Reduction.exists_front h
  have hconstants : (Reduction.run Registry.standard front).constants = t.constants := by
    rw [Reduction.constants, hstack]
    exact List.flatMap_singleton ..
  have hwords : (Reduction.run Registry.standard front).words = t.flatWords := by
    rw [Reduction.words, hstack]
    exact List.flatMap_singleton ..
  rw [(Reduction.run_conserves front).1] at hwords
  have hisWord : ∀ w ∈ t.flatWords, IsWord w := by
    rw [← hwords, List.forall_mem_map]
    exact fun w hw => isWord_rewritten (List.mem_filter.mp hw).2
  have hintegral : ∀ v ∈ t.constants, Binary64.isIntegral v = true := by
    intro v hv
    rw [← hconstants, Reduction.constants_run hapart] at hv
    obtain ⟨word, -, hvalue⟩ := List.mem_filterMap.mp hv
    refine Number.isIntegral_of_literal? hvalue (hfinite v ?_)
    rw [← hconstants, Reduction.constants_run hapart]
    exact hv
  have hagain : Reduction.run Registry.standard (Text.words t.toFlatText.toList) =
      ⟨[t.dropZeroSigns], []⟩ := by
    rw [Formula.toFlatText, String.toList_ofList, Formula.writeFlat_eq_spaced, words_spaced hisWord,
      ← hwords, Reduction.run_rewritten hapart front (hconstants ▸ hfinite),
      Reduction.dropZeroSigns, hstack]
    rfl
  refine ⟨t.dropZeroSigns, ?_, (Formula.alike_dropZeroSigns t hintegral).same, ?_, ?_⟩
  · rw [parse, hagain]
    rfl
  · rw [parse, hagain]
    rfl
  · rw [parse, hagain]
    rfl

/-- The mean takes all that is below it, the product lacks an operand, and what follows is left over
or set aside. -/
theorem parse_toFlatText_greedyMean :
    let t := Formula.apply "*"
      [.apply "negate" [.apply "mean" [.var "x", .const Binary64.negZero, .const 2]]]
    (parse Registry.standard "x foo -0 2 mean negate * 1 1.5 (").formula? = some t ∧
      (∀ v ∈ t.constants, v.isFinite = true) ∧
      ∃ u, (parse Registry.standard t.toFlatText).formula? = some u ∧ u.same false t = true ∧
        (parse Registry.standard t.toFlatText).height = 1 ∧
        (parse Registry.standard t.toFlatText).ignored = [] := by
  intro t
  have h : (parse Registry.standard "x foo -0 2 mean negate * 1 1.5 (").formula? = some t := rfl
  have hfinite : ∀ v ∈ t.constants, v.isFinite = true := by
    rw [Formula.constants, Formula.nodes_depthFirst]
    decide
  exact ⟨h, hfinite, parse_toFlatText h hfinite⟩

end Formulary.Flat
