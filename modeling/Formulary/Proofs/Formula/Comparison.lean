import Formulary.Comparison
import Formulary.Proofs.Formula.Sameness
import Formulary.Proofs.Reading.UniqueReading

/-!
# Equality

Comparands without non-numbers are equal when both or neither are entries and their
formulas differ in the signs of zeros at most (`equal_iff`). So equality is an
equivalence, and equal ones agree in all that does not show the sign of a zero. No text
shows it, and valid formulas are read from their texts in one way only, so that equality
is also what these texts tell.
-/

namespace Formulary

namespace Comparand

variable {a b c : Comparand}

/-- No constant of it is a non-number. -/
def NanFree (a : Comparand) : Prop := a.content.nanFree = true

/-- It shows the text of its formula. An entry does not if it was shown before its formula was
replaced. -/
def IsCurrent : Comparand → Prop
  | .formula _ _ => True
  | .entry e => ∀ text, e.text? = some text → text = e.formula.toFlatText

/-! ## Asking both sides -/

theorem same_eq_false_of_kindName {shared : Bool} {t u : Formula} (h : t.kindName ≠ u.kindName) :
    t.same shared u = false := by
  cases t <;> cases u <;> first | rfl | exact absurd rfl h

/-- If one side has no answer, neither has the other. -/
theorem answer?_eq_none (h : a.answer? b = none) : b.answer? a = none := by
  cases a with
  | formula t i =>
      cases b with
      | formula u j =>
          have hkind : t.kindName ≠ u.kindName := fun hkind => by simp [answer?, hkind] at h
          exact if_neg (Ne.symm hkind)
      | entry e => rfl
  | entry e =>
      cases b with
      | formula u j => rfl
      | entry f => cases h

/-- **Negation.** Two are different when they are not equal. -/
theorem differs_eq_not_equal (a b : Comparand) : a.differs b = !a.equal b := by
  rw [differs, equal]
  cases h : a.answer? b with
  | some answer => rfl
  | none => rw [answer?_eq_none h]; rfl

theorem equal_eq_true_iff : a.equal b = true ↔
    a.isEntry = b.isEntry ∧ a.content.same (a.origin == b.origin) b.content = true := by
  cases a with
  | formula t i =>
      cases b with
      | formula u j =>
          by_cases hkind : t.kindName = u.kindName
          · simp [equal, answer?, hkind, isEntry, content, origin]
          · simp [equal, answer?, hkind, Ne.symm hkind, isEntry, content,
              same_eq_false_of_kindName hkind]
      | entry e => simp [equal, answer?, isEntry]
  | entry e =>
      cases b with
      | formula u j => simp [equal, answer?, isEntry]
      | entry f => simp [equal, answer?, isEntry, content, origin, Entry.same]

/-- **Equality.** Equal are two entries or two formulas that differ in the signs of zeros at
most. -/
theorem equal_iff (ha : a.NanFree) : a.equal b = true ↔
    a.isEntry = b.isEntry ∧ a.content.dropZeroSigns = b.content.dropZeroSigns := by
  rw [equal_eq_true_iff, Formula.same_iff ha]

/-! ## What equal ones have in common -/

theorem digest_eq (ha : a.NanFree) : a.digest = a.content.dropZeroSigns.digest 0 := by
  have horigin : a.digest = a.content.digest a.origin := by cases a <;> rfl
  rw [horigin, Formula.digest_dropZeroSigns, Formula.digest_origin ha]

theorem text_eq (h : a.IsCurrent) : a.text = a.content.toFlatText := by
  cases a with
  | formula t i => rfl
  | entry e =>
      rw [text, Entry.display]
      cases htext : e.text? with
      | none => rfl
      | some text => exact h text htext

/-- The constants of a valid formula are finite. -/
theorem nanFree_of_problems {t : Formula} (h : t.problems Registry.standard = []) :
    t.nanFree = true := by
  induction t using Formula.operandsInduction with
  | const x =>
      have hfinite : x.isFinite = true := by
        simpa [Formula.problem?] using ((Formula.problems_eq_nil_iff _ _).mp h).1
      cases hnan : x.isNaN with
      | false => rw [Formula.nanFree, hnan]; rfl
      | true =>
          rw [Float.isNaN_eq_decide_eq_nan, decide_eq_true_iff] at hnan
          rw [hnan] at hfinite
          exact absurd hfinite (by decide +kernel)
  | var name => rfl
  | apply symbol xs ih =>
      exact Formula.nanFree_apply.mpr fun x hx =>
        ih x hx (((Formula.problems_eq_nil_iff _ _).mp h).2 x hx)

/-- **What equality tells.** To differ is not to be equal, and comparands of different kinds are not
equal. Without non-numbers equality is reflexive, symmetric and transitive, and equal ones have
the same digest, size, depth and texts. Two valid formulas, or two entries of such, are equal if
they have a bracketed form in common, or the flat form if one of them has no means and variances. -/
theorem equality_laws :
    (∀ a b : Comparand, a.differs b = !a.equal b) ∧
    (∀ a b : Comparand, a.isEntry ≠ b.isEntry ∨ a.content.kindName ≠ b.content.kindName →
      a.equal b = false) ∧
    (∀ a : Comparand, a.NanFree → a.equal a = true) ∧
    (∀ a b : Comparand, a.NanFree → b.NanFree → a.equal b = b.equal a) ∧
    (∀ a b c : Comparand, a.NanFree → b.NanFree → c.NanFree →
      a.equal b = true → b.equal c = true → a.equal c = true) ∧
    (∀ a b : Comparand, a.NanFree → b.NanFree → a.equal b = true →
      a.digest = b.digest ∧ a.content.size = b.content.size ∧ a.content.depth = b.content.depth ∧
      (∀ p, a.content.toText p = b.content.toText p) ∧
      a.content.toFlatText = b.content.toFlatText ∧
      (a.IsCurrent → b.IsCurrent → a.text = b.text)) ∧
    ∀ a b : Comparand, a.isEntry = b.isEntry → a.content.problems Registry.standard = [] →
      b.content.problems Registry.standard = [] →
      (∀ p, a.content.toText p = b.content.toText p → a.equal b = true) ∧
      ("mean" ∉ a.content.symbols → "var" ∉ a.content.symbols →
        a.content.toFlatText = b.content.toFlatText → a.equal b = true) := by
  refine ⟨differs_eq_not_equal, fun a b hkind => ?_, fun a ha => (equal_iff ha).mpr ⟨rfl, rfl⟩,
    fun a b ha hb => ?_, fun a b c ha hb hc hab hbc => ?_, fun a b ha hb h => ?_,
    fun a b hentry ha hb => ?_⟩
  · rw [← Bool.not_eq_true, equal_eq_true_iff]
    rintro ⟨hentry, hsame⟩
    rcases hkind with hkind | hkind
    · exact hkind hentry
    · rw [same_eq_false_of_kindName hkind] at hsame
      cases hsame
  · rw [Bool.eq_iff_iff, equal_iff ha, equal_iff hb, eq_comm, @eq_comm Formula]
  · obtain ⟨hentry, hcontent⟩ := (equal_iff ha).mp hab
    obtain ⟨hentry', hcontent'⟩ := (equal_iff hb).mp hbc
    exact (equal_iff ha).mpr ⟨hentry.trans hentry', hcontent.trans hcontent'⟩
  · obtain ⟨-, hcontent⟩ := (equal_iff ha).mp h
    have hflat : a.content.toFlatText = b.content.toFlatText := by
      rw [Formula.toFlatText, Formula.toFlatText, ← Formula.writeFlat_dropZeroSigns, hcontent,
        Formula.writeFlat_dropZeroSigns]
    refine ⟨?_, ?_, ?_, fun p => ?_, hflat, fun hcurrent hcurrent' => ?_⟩
    · rw [digest_eq ha, digest_eq hb, hcontent]
    · rw [← Formula.size_dropZeroSigns, hcontent, Formula.size_dropZeroSigns]
    · rw [← Formula.depth_dropZeroSigns, hcontent, Formula.depth_dropZeroSigns]
    · rw [Formula.toText, Formula.toText, ← Formula.write_dropZeroSigns, hcontent,
        Formula.write_dropZeroSigns]
    · rw [text_eq hcurrent, text_eq hcurrent', hflat]
  · refine ⟨fun p htext => ?_, fun hmean hvar htext => ?_⟩
    · exact (equal_iff (nanFree_of_problems ha)).mpr ⟨hentry, Formula.eq_of_toText ha hb htext⟩
    · exact (equal_iff (nanFree_of_problems ha)).mpr
        ⟨hentry, Formula.eq_of_toFlatText ha hb hmean hvar htext⟩

/-- A sum with one constant. -/
def sumWith (value : Float) : Formula := .apply "+" [.var "x", .const value]

/-- Sums with the two zeros are equal, and an entry of one is not equal to it. -/
theorem equality_laws_zeros :
    (formula (sumWith 0) 0).NanFree ∧ (formula (sumWith Binary64.negZero) 1).NanFree ∧
    (formula (sumWith 0) 0).equal (formula (sumWith Binary64.negZero) 1) = true ∧
    (formula (sumWith Binary64.negZero) 1).equal (formula (sumWith 0) 0) = true ∧
    (formula (sumWith 0) 0).equal (formula (sumWith 0) 2) = true ∧
    (formula (sumWith 0) 0).digest = (formula (sumWith Binary64.negZero) 1).digest ∧
    (formula (sumWith 0) 0).text = (formula (sumWith Binary64.negZero) 1).text ∧
    (formula (sumWith 0) 0).equal (entry { formula := sumWith 0, origin := 0 }) = false ∧
    (formula (sumWith 0) 0).differs (entry { formula := sumWith 0, origin := 0 }) = true := by
  obtain ⟨hdiffers, hkinds, hrefl, hsymm, htrans, hcommon, htold⟩ := equality_laws
  have hvalid : ∀ v : Float, v.isFinite = true → (sumWith v).problems Registry.standard = [] := by
    intro v hv
    rw [sumWith]
    simp [Formula.problems_eq, Formula.problem?, Formula.operands, hv, argumentNames,
      (by decide : Registry.standard.arity? "+" = some (.exactly 2)), Arity.admits]
  have hzero := hvalid 0 (by decide +kernel)
  have hnegZero := hvalid Binary64.negZero (by decide +kernel)
  have hnan : (formula (sumWith 0) 0).NanFree := nanFree_of_problems hzero
  have hnan' : (formula (sumWith Binary64.negZero) 1).NanFree := nanFree_of_problems hnegZero
  have hequal := (htold (formula (sumWith 0) 0) (formula (sumWith Binary64.negZero) 1) rfl hzero
    hnegZero).1 .first (by decide +kernel)
  have hback := (htold (formula (sumWith Binary64.negZero) 1) (formula (sumWith 0) 2) rfl hnegZero
    hzero).2 (by decide +kernel) (by decide +kernel) (by decide +kernel)
  obtain ⟨hdigest, -, -, -, -, htext⟩ := hcommon _ _ hnan hnan' hequal
  have hentry := hkinds (formula (sumWith 0) 0) (entry { formula := sumWith 0, origin := 0 })
    (.inl (by decide))
  refine ⟨hnan, hnan', hequal, ?_, htrans _ _ _ hnan hnan' hnan hequal hback, hdigest,
    htext trivial trivial, hentry, ?_⟩
  · rw [← hsymm _ _ hnan hnan', hequal]
  · rw [hdiffers, hentry]
    rfl

end Comparand
end Formulary
