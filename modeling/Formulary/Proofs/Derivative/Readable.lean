import Formulary.Proofs.Derivative.Closure
import Formulary.Proofs.Reading.Agreement
import Formulary.Proofs.Reading.Occurrence

/-!
# Which derivatives can be read

A reader takes integral constants only. Of all the constants that the rules of
differentiation bring in, the base of the natural logarithm alone is not one,
and the rules for powers and logarithms alone bring it in. Every rule keeps the
slopes of all operands, so whatever comes into one of them stays. A derivative is
therefore read back unless the formula has a power or a logarithm anywhere
(`derivative_reread`).
-/

namespace Formulary

namespace Formula

/-- Whether a formula has a constant that is not integral. -/
def HasStray (t : Formula) : Prop := ∃ v ∈ t.constants, Binary64.isIntegral v = false

theorem hasStray_const {value : Float} :
    (const value).HasStray ↔ Binary64.isIntegral value = false := by
  simp [HasStray, constants_eq, constant?, operands]

theorem hasStray_apply {symbol : String} {xs : List Formula} :
    (apply symbol xs).HasStray ↔ ∃ x ∈ xs, x.HasStray := by
  simp only [HasStray, constants_apply, List.mem_flatMap]
  constructor
  · rintro ⟨v, ⟨x, hx, hv⟩, hstray⟩
    exact ⟨x, hx, v, hv, hstray⟩
  · rintro ⟨x, hx, v, hv, hstray⟩
    exact ⟨v, ⟨x, hx, hv⟩, hstray⟩

theorem not_hasStray_iff {t : Formula} :
    ¬ t.HasStray ↔ ∀ v ∈ t.constants, Binary64.isIntegral v = true := by
  simp [HasStray]

/-! ## The constants of the rules -/

theorem not_hasStray_zero : ¬ zero.HasStray := by
  rw [zero, hasStray_const, Binary64.isIntegral_zero]
  decide

theorem not_hasStray_one : ¬ one.HasStray := by
  rw [one, hasStray_const]
  decide

theorem hasStray_euler : euler.HasStray := by
  rw [euler, hasStray_const]
  decide

theorem not_hasStray_count {n : Nat} (hn : n < Binary64.countLimit) : ¬ (count n).HasStray := by
  rw [count, hasStray_const, Bool.not_eq_false]
  exact Binary64.isIntegral_ofRatio (Binary64.isFinite_ofNat hn)

theorem hasStray_pair {o : Operation} {x y : Formula} :
    (op o [x, y]).HasStray ↔ x.HasStray ∨ y.HasStray := by
  simp [op, hasStray_apply]

theorem hasStray_single {o : Operation} {x : Formula} : (op o [x]).HasStray ↔ x.HasStray := by
  simp [op, hasStray_apply]

theorem hasStray_ln {x : Formula} : (ln x).HasStray := hasStray_pair.mpr (.inl hasStray_euler)

end Formula

/-! ## The rules -/

namespace Dual

open Formula

variable {x y : Dual} {xs : List Dual}

theorem hasStray_minus :
    (x.minus y).slope.HasStray ↔ x.slope.HasStray ∨ y.slope.HasStray := hasStray_pair

theorem hasStray_times (hx : ¬ x.formula.HasStray) (hy : ¬ y.formula.HasStray) :
    (x.times y).slope.HasStray ↔ x.slope.HasStray ∨ y.slope.HasStray := by
  simp [Dual.times, Formula.plus, Formula.times, hasStray_pair, hx, hy]

theorem hasStray_total (start : Formula) :
    (xs.foldl (fun total x => Formula.plus total x.slope) start).HasStray ↔
      start.HasStray ∨ ∃ x ∈ xs, x.slope.HasStray := by
  induction xs generalizing start with
  | nil => simp
  | cons x xs ih =>
      rw [List.foldl_cons, ih, Formula.plus, hasStray_pair, List.exists_mem_cons_iff, or_assoc]

theorem hasStray_mean (hcount : xs.length < Binary64.countLimit) :
    (Dual.mean xs).slope.HasStray ↔ ∃ x ∈ xs, x.slope.HasStray := by
  simp [Dual.mean, Formula.divide, hasStray_pair, hasStray_total, not_hasStray_zero,
    not_hasStray_count hcount]

theorem hasStray_variance (hcount : xs.length < Binary64.countLimit)
    (hxs : ∀ x ∈ xs, ¬ x.formula.HasStray) :
    (Dual.variance xs).slope.HasStray ↔ ∃ x ∈ xs, x.slope.HasStray := by
  have hsquares : (Dual.mean (xs.map Dual.square)).slope.HasStray ↔
      ∃ x ∈ xs, x.slope.HasStray := by
    rw [hasStray_mean (by rwa [List.length_map])]
    simp only [List.mem_map, exists_exists_and_eq_and]
    refine exists_congr fun x => and_congr_right fun hx => ?_
    rw [Dual.square, hasStray_times (hxs x hx) (hxs x hx), or_self]
  have hformula : ¬ (Dual.mean xs).formula.HasStray := by
    rw [Dual.mean, Formula.mean, op, hasStray_apply]
    rintro ⟨t, ht, hstray⟩
    obtain ⟨x, hx, rfl⟩ := List.mem_map.mp ht
    exact hxs x hx hstray
  have hsquare : (Dual.mean xs).square.slope.HasStray ↔ ∃ x ∈ xs, x.slope.HasStray := by
    rw [Dual.square, hasStray_times hformula hformula, or_self, hasStray_mean hcount]
  rw [Dual.variance, hasStray_minus, hsquares, hsquare, or_self]

end Dual

namespace Operation

open Formula

/-- **Rules.** The rules for powers and logarithms make a derivative that cannot be read, the others
only from the slope of an operand that cannot be read. -/
theorem dual?_hasStray_iff {o : Operation} {ds : List Dual} {dual : Dual}
    (hdual : o.dual? ds = some dual) (hcount : ds.length < Binary64.countLimit)
    (hds : ∀ d ∈ ds, ¬ d.formula.HasStray) :
    dual.slope.HasStray ↔ (o = .power ∨ o = .log) ∨ ∃ d ∈ ds, d.slope.HasStray := by
  cases rule_of_dual? hdual with
  | plus x y | minus x y =>
      simp [Dual.plus, Dual.minus, Formula.plus, Formula.minus, hasStray_pair]
  | negate x => simp [Dual.negate, Formula.negate, hasStray_single]
  | times x y =>
      obtain ⟨hx, hy⟩ := List.forall_mem_cons.mp hds
      simp [Dual.hasStray_times hx (hy y List.mem_cons_self)]
  | divide x y =>
      obtain ⟨hx, hy⟩ := List.forall_mem_cons.mp hds
      simp [Dual.divide, Formula.divide, Formula.minus, Formula.times, hasStray_pair, hx,
        hy y List.mem_cons_self]
  | power x y => simp [Dual.power, Formula.plus, Formula.times, hasStray_pair, hasStray_ln]
  | log x y =>
      simp [Dual.log, Formula.divide, Formula.minus, Formula.times, hasStray_pair, hasStray_ln]
  | mean => simp [Dual.hasStray_mean hcount]
  | variance => simp [Dual.hasStray_variance hcount hds]

end Operation

namespace Formula

/-! ## Derivatives -/

/-- **Surfacing.** A power or a logarithm anywhere in a formula is all that makes its derivative
unreadable. -/
theorem derivative_hasStray_iff {t d : Formula} {v : String} (h : t.MadeOf .finite)
    (hreadable : ¬ t.HasStray) (hd : t.derivative v = .ok d) :
    d.HasStray ↔ "pow" ∈ t.symbols ∨ "log" ∈ t.symbols := by
  induction t using operandsInduction generalizing d with
  | const value =>
      cases hd
      exact iff_of_false not_hasStray_zero (by simp [symbols, nodes_depthFirst, preorder, symbol?])
  | var name =>
      cases hd
      refine iff_of_false ?_ (by simp [symbols, nodes_depthFirst, preorder, symbol?])
      split
      · exact not_hasStray_one
      · exact not_hasStray_zero
  | apply symbol xs ih =>
      obtain ⟨⟨hcount, -⟩, hxs⟩ := madeOf_iff.mp h
      have hoperands : ∀ x ∈ xs, ¬ x.HasStray := fun x hx hstray =>
        hreadable (hasStray_apply.mpr ⟨x, hx, hstray⟩)
      obtain ⟨o, ds, dual, ho, hds, hdual, rfl⟩ := derivative_apply_eq_ok_iff.mp hd
      obtain ⟨rfl, hslopes⟩ := derivative_of_duals hds
      have hmem : ∀ {d}, d ∈ ds → d.formula ∈ ds.map Dual.formula := List.mem_map_of_mem
      have hbelow : (∃ d ∈ ds, d.slope.HasStray) ↔
          ∃ d ∈ ds, "pow" ∈ d.formula.symbols ∨ "log" ∈ d.formula.symbols :=
        exists_congr fun d => and_congr_right fun hd =>
          ih d.formula (hmem hd) (hxs _ (hmem hd)) (hoperands _ (hmem hd)) (hslopes d hd)
      have hroot : (o = .power ∨ o = .log) ↔ symbol = "pow" ∨ symbol = "log" := by
        rw [← Operation.symbol_of_ofSymbol? ho]
        cases o <;> decide
      have hlength : ds.length < Binary64.countLimit := by
        rw [← List.length_map (f := Dual.formula)]
        exact hcount
      rw [Operation.dual?_hasStray_iff hdual hlength fun d hd => hoperands _ (hmem hd), hroot,
        hbelow]
      simp only [mem_symbols_apply, List.mem_map, exists_exists_and_eq_and, and_or_left, exists_or]
      exact or_or_or_comm ..

end Formula

theorem Binary64.isIntegral_one : isIntegral 1 = true := by decide

/-- What a formula is made of whose constants are integral or the base of the natural logarithm. -/
def Material.readable : Material where
  Name _ := True
  Constant value := Binary64.isIntegral value = true ∨ value = Binary64.eulerNumber
  Count n := n < Binary64.countLimit
  zero := .inl Binary64.isIntegral_zero
  one := .inl Binary64.isIntegral_one
  euler := .inr rfl
  count_one := Material.finite.count_one
  count_two := Material.finite.count_two
  ofNat hn := .inl (Binary64.isIntegral_ofRatio (Binary64.isFinite_ofNat hn))

namespace Formula

theorem MadeOf.constants {M : Material} {t : Formula} (h : t.MadeOf M) {v : Float}
    (hv : v ∈ t.constants) : M.Constant v := by
  obtain ⟨node, hnode, hvalue⟩ := List.mem_filterMap.mp hv
  cases node with
  | const value =>
      cases hvalue
      exact h _ hnode
  | _ => cases hvalue

theorem madeOf_readable {t : Formula} (h : t.MadeOf .finite) (hreadable : ¬ t.HasStray) :
    t.MadeOf .readable := by
  intro node hnode
  have hof := h node hnode
  cases node with
  | const value =>
      have hmem : value ∈ t.constants := List.mem_filterMap.mpr ⟨_, hnode, rfl⟩
      exact .inl (not_hasStray_iff.mp hreadable value hmem)
  | var name => exact trivial
  | apply symbol xs => exact hof

/-! ## Reading them -/

/-- How the base of the natural logarithm is written. -/
def eulerText : List Char := "2.718281828459045".toList

theorem constant_euler : Number.constant Binary64.eulerNumber = eulerText := by decide +kernel

/-- Whatever has the digits of the base of the natural logarithm in it is an unknown word. -/
theorem unknown_of_eulerText (p : Placement) (front back : List Char) (start : Nat) :
    Progress.unknown (.standard p) ⟨.word (front ++ (eulerText ++ back)), start⟩ = true := by
  have hpoint : '.' ∈ front ++ (eulerText ++ back) :=
    List.mem_append_right _ (List.mem_append_left _ (by decide))
  have hnone : Registry.standard.item? (front ++ (eulerText ++ back)) = none :=
    Number.item?_eq_none_of_point hpoint
  rw [Progress.unknown]
  dsimp only
  rw [Progress.mark?_eq, Dialect.standard]
  dsimp only
  rw [hnone]
  rfl

/-- A formula with the base of the natural logarithm for its only unreadable constant is not read;
the reader stops where that constant is written first. -/
theorem parse_of_euler (p : Placement) {t : Formula} (h : t.Over Registry.standard)
    (hmade : t.MadeOf .readable) (hstray : t.HasStray) :
    ∃ offset, FirstAt eulerText (t.write p) offset ∧
      (Dialect.standard p).parse (t.toText p) =
        .error ⟨.unknownToken (String.ofList eulerText), offset⟩ := by
  have heuler : ∀ v ∈ t.constants, Binary64.isIntegral v = false →
      v = Binary64.eulerNumber := by
    intro v hv hnot
    refine (hmade.constants hv).resolve_left fun hintegral => ?_
    rw [hnot] at hintegral
    cases hintegral
  obtain ⟨v, hv⟩ : ∃ v, t.constants.find? (fun v => !Binary64.isIntegral v) = some v := by
    obtain ⟨stray, hmem, hnot⟩ := hstray
    exact Option.isSome_iff_exists.mp (List.find?_isSome.mpr ⟨stray, hmem, by simp [hnot]⟩)
  obtain rfl : v = Binary64.eulerNumber :=
    heuler v (List.mem_of_find?_eq_some hv) (by simpa using List.find?_some hv)
  obtain ⟨offset, hfind⟩ := find?_unknown_spelled p h hv
  rw [constant_euler] at hfind
  refine ⟨offset, ?_, parse_of_stray p h hfind⟩
  rw [← tokensFrom_write p h] at hfind
  refine firstAt_of_find? (by decide) hfind fun front back start hmem => ?_
  have hunknown := unknown_of_eulerText p front back start
  refine ⟨?_, hunknown⟩
  -- the unknown words are the constants that are not integral
  have hword : Token.word (front ++ (eulerText ++ back)) ∈ t.strayWords := by
    rw [← filter_unknown_spelled p t h 0, ← tokensFrom_write p h]
    exact List.mem_map_of_mem (List.mem_filter.mpr ⟨hmem, hunknown⟩)
  obtain ⟨v, hv, htoken⟩ := List.mem_map.mp hword
  obtain ⟨hmember, hnot⟩ := List.mem_filter.mp hv
  rw [heuler v hmember (by simpa using hnot), constant_euler] at htoken
  exact (Token.word.inj htoken).symm

/-- **Readable derivatives.** A valid formula with integral constants has a derivative by any name.
Without powers and logarithms the derivative is read back from either bracketed form as a formula
equal to it. With one of them anywhere it is not: the base of the natural logarithm is an unknown
token where it is written first. Numbers of operands must be finite doubles, which all lists that
can be held have. -/
theorem derivative_reread {t : Formula} (hvalid : t.problems Registry.standard = [])
    (hintegral : ∀ v ∈ t.constants, Binary64.isIntegral v = true)
    (hcounts : ∀ node ∈ t.nodes .depthFirst, node.operands.length < Binary64.countLimit)
    (v : String) :
    ∃ d, t.derivative v = .ok d ∧ ∀ p : Placement,
      ((∃ u, (Dialect.standard p).parse (d.toText p) = .ok u) ↔
        "pow" ∉ t.symbols ∧ "log" ∉ t.symbols) ∧
      (∀ u, (Dialect.standard p).parse (d.toText p) = .ok u → u.same false d = true) ∧
      ("pow" ∈ t.symbols ∨ "log" ∈ t.symbols →
        ∃ offset, FirstAt "2.718281828459045".toList (d.write p) offset ∧
          (Dialect.standard p).parse (d.toText p) =
            .error ⟨.unknownToken "2.718281828459045", offset⟩) := by
  have hfinite : t.MadeOf .finite := (madeOf_finite_iff t).mpr ⟨hvalid, hcounts⟩
  have hreadable := not_hasStray_iff.mpr hintegral
  obtain ⟨d, hd, hmade⟩ := hfinite.derivative v
  obtain ⟨d', hd', hmade'⟩ := (madeOf_readable hfinite hreadable).derivative v
  obtain rfl : d = d' := Except.ok.inj (hd.symm.trans hd')
  have hover := over_of_problems d ((madeOf_finite_iff d).mp hmade).1
  have hiff := derivative_hasStray_iff hfinite hreadable hd
  refine ⟨d, hd, fun p => ?_⟩
  by_cases hstray : d.HasStray
  · obtain ⟨offset, hfirst, herror⟩ := parse_of_euler p hover hmade' hstray
    have hnot : ∀ u, (Dialect.standard p).parse (d.toText p) ≠ .ok u := by
      intro u hu
      rw [herror] at hu
      cases hu
    refine ⟨iff_of_false (not_exists.mpr hnot) ?_, fun u hu => absurd hu (hnot u),
      fun _ => ⟨offset, hfirst, herror⟩⟩
    rw [← not_or, ← hiff, not_not]
    exact hstray
  · have hconstants := not_hasStray_iff.mp hstray
    have hread := parse_toText_eq p hover hconstants
    rw [hiff] at hstray
    refine ⟨iff_of_true ⟨_, hread⟩ (not_or.mp hstray), ?_, fun h => absurd h hstray⟩
    intro u hu
    cases hread.symm.trans hu
    exact (alike_dropZeroSigns d hconstants).same

/-- The slope of a square is read back, that of a mean with a power in it is not. -/
theorem derivative_reread_squareAndMean :
    (∃ d, (apply "*" [var "x", var "x"]).derivative "x" = .ok d ∧ ∀ p : Placement,
      ∃ u, (Dialect.standard p).parse (d.toText p) = .ok u ∧ u.same false d = true) ∧
    ∃ d, (apply "mean" [var "x", apply "pow" [var "y", const 2]]).derivative "x" = .ok d ∧
      ∀ p : Placement, ∃ offset, FirstAt "2.718281828459045".toList (d.write p) offset ∧
        (Dialect.standard p).parse (d.toText p) =
          .error ⟨.unknownToken "2.718281828459045", offset⟩ := by
  constructor
  · obtain ⟨d, hd, hread⟩ := derivative_reread (t := apply "*" [var "x", var "x"])
      (by decide +kernel) (by decide +kernel) (by decide +kernel) "x"
    refine ⟨d, hd, fun p => ?_⟩
    obtain ⟨hiff, hsame, -⟩ := hread p
    obtain ⟨u, hu⟩ := hiff.mpr (by decide +kernel)
    exact ⟨u, hu, hsame u hu⟩
  · obtain ⟨d, hd, hread⟩ := derivative_reread
      (t := apply "mean" [var "x", apply "pow" [var "y", const 2]])
      (by decide +kernel) (by decide +kernel) (by decide +kernel) "x"
    exact ⟨d, hd, fun p => (hread p).2.2 (by decide +kernel)⟩

end Formula
end Formulary
