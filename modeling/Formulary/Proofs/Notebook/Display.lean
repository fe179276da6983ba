import Formulary.Notebook
import Formulary.Proofs.Formula.LeftSpine
import Formulary.Proofs.Number.Integral

/-!
# The displayed text of an entry

An entry is displayed with the text that was made when it was first shown. So the
text is that of the formula which the entry had then (`textAt_run`), and it is that of the
formula which it has now unless a replacement came in between (`fresh_run`).
-/

namespace Formulary

/-! ## Formulas that are the same have the same text -/

namespace Formula

/-- Constants of the same value are written alike, the two zeros among them. -/
theorem constant_eq_of_sameValue {shared : Bool} {x y : Float} (h : sameValue shared x y = true) :
    Number.constant x = Number.constant y := by
  rw [sameValue, Bool.or_eq_true] at h
  rcases h with h | h
  · rcases Binary64.eq_or_zero_of_beq h with rfl | ⟨hx, hy⟩
    · rfl
    · have htext := Number.constant_negZero
      rcases Binary64.eq_of_magnitude_zero hx with rfl | rfl
      · rcases Binary64.eq_of_magnitude_zero hy with rfl | rfl
        · rfl
        · exact htext.symm
      · rcases Binary64.eq_of_magnitude_zero hy with rfl | rfl
        · exact htext
        · rfl
  · simp only [Bool.and_eq_true, Float.isNaN_eq_decide_eq_nan, decide_eq_true_iff] at h
    rw [h.1.2, h.2]

theorem writeFlat_eq_of_same {shared : Bool} {u : Formula} :
    ∀ {t : Formula}, same shared u t = true → u.writeFlat = t.writeFlat := by
  induction u using operandsInduction with
  | const x =>
      intro t h
      cases t with
      | const y => rw [writeFlat_const, writeFlat_const, constant_eq_of_sameValue h]
      | _ => cases h
  | var name =>
      intro t h
      cases t with
      | var other => rw [eq_of_beq h]
      | _ => cases h
  | apply symbol xs ih =>
      intro t h
      cases t with
      | apply other ys =>
          rw [same, Bool.and_eq_true] at h
          rw [writeFlat_apply, writeFlat_apply, eq_of_beq h.1,
            map_eq_of_sameAll (fun x hx y hsame => ih x hx hsame) h.2]
      | _ => cases h

end Formula

namespace Notebook

variable {b : Notebook} {q : NotebookRequest} {i : Nat} {e : Entry}

/-- The notebook after a request; one that is refused leaves it as it was. -/
def next (b : Notebook) (q : NotebookRequest) : Notebook :=
  match b.request q with
  | .ok (_, after) => after
  | .error _ => b

/-- The notebook after a run of requests. -/
def run (b : Notebook) (qs : List NotebookRequest) : Notebook := qs.foldl next b

/-- The text of an entry, if it has been made. -/
def textAt (b : Notebook) (i : Nat) : Option String := b.entries[i]?.bind Entry.text?

/-- The formula of an entry that a request shows. -/
def shown? (b : Notebook) (i : Nat) : NotebookRequest → Option Formula
  | .display =>
    match b.current with
    | .ok (k, e) => if k = i then some e.formula else none
    | .error _ => none
  | _ => none

/-- The formula by which a request replaces that of an entry. -/
def replacement? (b : Notebook) (i : Nat) : NotebookRequest → Option Formula
  | .adopt name =>
    match b.current, b.lookup name with
    | .ok (k, _), .ok (_, other) => if k = i then some other.formula else none
    | _, _ => none
  | _ => none

/-- The formula of an entry that is shown first in a run. -/
def firstShown? (i : Nat) : Notebook → List NotebookRequest → Option Formula
  | _, [] => none
  | b, q :: qs => (b.shown? i q).or (firstShown? i (b.next q) qs)

/-! ## One request -/

/-- What a request can do to the entries. -/
inductive Changes (b : Notebook) : NotebookRequest → List Entry → Prop
  | keeps {q : NotebookRequest} : (∀ i, b.shown? i q = none) → (∀ i, b.replacement? i q = none) →
      Changes b q b.entries
  | adds {q : NotebookRequest} {e : Entry} : e.text? = none → (∀ i, b.shown? i q = none) →
      (∀ i, b.replacement? i q = none) → Changes b q (b.entries ++ [e])
  | shows {k : Nat} {e : Entry} : b.entries[k]? = some e →
      (∀ i, b.shown? i .display = if k = i then some e.formula else none) →
      Changes b .display (b.entries.set k e.display.2)
  | replaces {name : String} {k : Nat} {e other : Entry} : b.entries[k]? = some e →
      (∀ i, b.replacement? i (.adopt name) = if k = i then some other.formula else none) →
      Changes b (.adopt name)
        (b.entries.set k { e with formula := other.formula, origin := other.origin })

theorem getElem?_of_current {k : Nat} (h : b.current = .ok (k, e)) : b.entries[k]? = some e := by
  rw [current] at h
  split at h
  · cases h
  · split at h
    · cases h
    · next hk => cases h; exact hk

/-- A request that neither shows nor replaces anything keeps the entries or adds one. -/
theorem changes_of_plain (hshown : ∀ i, b.shown? i q = none)
    (hreplacement : ∀ i, b.replacement? i q = none)
    (h : (b.next q).entries = b.entries ∨
      ∃ e : Entry, e.text? = none ∧ (b.next q).entries = b.entries ++ [e]) :
    Changes b q (b.next q).entries := by
  rcases h with h | ⟨e, htext, h⟩
  · rw [h]
    exact .keeps hshown hreplacement
  · rw [h]
    exact .adds htext hshown hreplacement

theorem next_display_changes (b : Notebook) : Changes b .display (b.next .display).entries := by
  cases hcurrent : b.current with
  | error fault =>
      refine changes_of_plain (fun _ => ?_) (fun _ => rfl) (.inl ?_)
      · rw [shown?, hcurrent]
      · simp only [next, request, hcurrent]
        rfl
  | ok found =>
      have hnext : (b.next .display).entries = b.entries.set found.1 found.2.display.2 := by
        simp only [next, request, hcurrent]
        rfl
      rw [hnext]
      refine .shows (getElem?_of_current hcurrent) fun i => ?_
      rw [shown?, hcurrent]

theorem next_adopt_changes (b : Notebook) (name : String) :
    Changes b (.adopt name) (b.next (.adopt name)).entries := by
  cases hcurrent : b.current with
  | error fault =>
      refine changes_of_plain (fun _ => rfl) (fun _ => ?_) (.inl ?_)
      · rw [replacement?, hcurrent]
      · simp only [next, request, hcurrent]
        rfl
  | ok found =>
      cases hlookup : b.lookup name with
      | error fault =>
          refine changes_of_plain (fun _ => rfl) (fun _ => ?_) (.inl ?_)
          · rw [replacement?, hcurrent, hlookup]
          · simp only [next, request, hcurrent, hlookup]
            rfl
      | ok other =>
          have hnext : (b.next (.adopt name)).entries = b.entries.set found.1
              { found.2 with formula := other.2.formula, origin := other.2.origin } := by
            simp only [next, request, hcurrent, hlookup]
            rfl
          rw [hnext]
          refine .replaces (getElem?_of_current hcurrent) fun i => ?_
          rw [replacement?, hcurrent, hlookup]

/-- **Step.** Whatever is asked, the entries change in one of these ways. -/
theorem next_changes (b : Notebook) (q : NotebookRequest) : Changes b q (b.next q).entries := by
  cases q with
  | read form text =>
      refine changes_of_plain (fun _ => rfl) (fun _ => rfl) ?_
      simp only [next, request]
      split
      · next h =>
          split at h
          · cases h
          · cases h
          · cases h; exact .inr ⟨_, rfl, rfl⟩
      · exact .inl rfl
  | wrap t => exact changes_of_plain (fun _ => rfl) (fun _ => rfl) (.inr ⟨_, rfl, rfl⟩)
  | derivative name =>
      refine changes_of_plain (fun _ => rfl) (fun _ => rfl) ?_
      simp only [next, request]
      cases b.current with
      | error fault => exact .inl rfl
      | ok found =>
          simp only [bind, Except.bind]
          cases found.2.formula.derivative name with
          | error fault => exact .inl rfl
          | ok t => exact .inr ⟨_, rfl, rfl⟩
  | evaluate arguments =>
      refine changes_of_plain (fun _ => rfl) (fun _ => rfl) (.inl ?_)
      simp only [next, request]
      cases b.current with
      | error fault => rfl
      | ok found =>
          simp only [bind, Except.bind]
          cases found.2.formula.evaluateAt arguments <;> rfl
  | display => exact next_display_changes b
  | adopt name => exact next_adopt_changes b name
  | load name =>
      refine changes_of_plain (fun _ => rfl) (fun _ => rfl) (.inl ?_)
      simp only [next, request]
      cases b.lookup name <;> rfl
  | same name | sameDigest name | sameAsFormula name =>
      refine changes_of_plain (fun _ => rfl) (fun _ => rfl) (.inl ?_)
      simp only [next, request]
      cases b.current with
      | error fault => rfl
      | ok found => cases b.lookup name <;> rfl
  | _ =>
      refine changes_of_plain (fun _ => rfl) (fun _ => rfl) (.inl ?_)
      simp only [next, request]
      cases b.current <;> rfl

/-- The entry keeps its formula unless that is replaced, and its text once it has been made. -/
theorem exists_entry_next (h : b.entries[i]? = some e) (q : NotebookRequest) :
    ∃ e', (b.next q).entries[i]? = some e' ∧
      e'.formula = (b.replacement? i q).getD e.formula ∧
      e'.text? = e.text?.or ((b.shown? i q).map Formula.toFlatText) := by
  have hlt : i < b.entries.length := (List.getElem?_eq_some_iff.mp h).1
  have hchanges := next_changes b q
  generalize (b.next q).entries = entries at hchanges ⊢
  cases hchanges with
  | keeps hshown hreplacement =>
      exact ⟨e, h, by rw [hreplacement]; rfl, by rw [hshown]; exact Option.or_none.symm⟩
  | adds htext hshown hreplacement =>
      refine ⟨e, ?_, by rw [hreplacement]; rfl, by rw [hshown]; exact Option.or_none.symm⟩
      rw [List.getElem?_append_left hlt, h]
  | @shows k shown hk hshown =>
      rw [hshown, List.getElem?_set]
      by_cases hki : k = i
      · subst hki
        rw [h, Option.some_inj] at hk
        subst hk
        simp only [if_pos hlt]
        refine ⟨_, rfl, ?_⟩
        rw [Entry.display]
        cases htext : e.text? with
        | none => exact ⟨rfl, rfl⟩
        | some text => exact ⟨rfl, htext⟩
      · rw [if_neg hki, if_neg hki]
        exact ⟨e, h, rfl, Option.or_none.symm⟩
  | @replaces name k old other hk hreplacement =>
      rw [hreplacement, List.getElem?_set]
      by_cases hki : k = i
      · subst hki
        rw [h, Option.some_inj] at hk
        subst hk
        simp only [if_pos hlt]
        exact ⟨_, rfl, rfl, Option.or_none.symm⟩
      · rw [if_neg hki, if_neg hki]
        exact ⟨e, h, rfl, Option.or_none.symm⟩

/-- An entry that was not there has no text yet, and nothing of it is shown. -/
theorem new_entry_next (h : b.entries[i]? = none) (q : NotebookRequest) :
    b.shown? i q = none ∧ ∀ e, (b.next q).entries[i]? = some e → e.text? = none := by
  have hchanges := next_changes b q
  generalize (b.next q).entries = entries at hchanges ⊢
  cases hchanges with
  | keeps hshown _ =>
      refine ⟨hshown i, fun e he => ?_⟩
      rw [h] at he
      cases he
  | adds htext hshown _ =>
      refine ⟨hshown i, fun e he => ?_⟩
      rw [List.getElem?_append, if_neg (Nat.not_lt.mpr (List.getElem?_eq_none_iff.mp h))] at he
      rw [List.getElem?_singleton] at he
      split at he
      · cases he; exact htext
      · cases he
  | @shows k shown hk hshown =>
      have hki : k ≠ i := by
        rintro rfl
        rw [h] at hk
        cases hk
      refine ⟨by rw [hshown, if_neg hki], fun e he => ?_⟩
      rw [List.getElem?_set, if_neg hki, h] at he
      cases he
  | @replaces name k old other hk hreplacement =>
      refine ⟨rfl, fun e he => ?_⟩
      have hki : k ≠ i := by
        rintro rfl
        rw [h] at hk
        cases hk
      rw [List.getElem?_set, if_neg hki, h] at he
      cases he

/-- **One request.** It makes the text of an entry if it shows the entry and there is none yet. -/
theorem textAt_next (b : Notebook) (q : NotebookRequest) (i : Nat) :
    (b.next q).textAt i = (b.textAt i).or ((b.shown? i q).map Formula.toFlatText) := by
  rw [textAt, textAt]
  cases h : b.entries[i]? with
  | none =>
      obtain ⟨hshown, hnew⟩ := new_entry_next h q
      rw [hshown]
      cases h' : (b.next q).entries[i]? with
      | none => rfl
      | some e => exact hnew e h'
  | some e =>
      obtain ⟨e', he', -, htext⟩ := exists_entry_next h q
      rw [he']
      exact htext

/-- **Runs.** The text of an entry, if there was none, is that of the formula which it had when it
was first shown. -/
theorem textAt_run (qs : List NotebookRequest) (b : Notebook) (i : Nat) :
    (b.run qs).textAt i = (b.textAt i).or ((firstShown? i b qs).map Formula.toFlatText) := by
  induction qs generalizing b with
  | nil => exact Option.or_none.symm
  | cons q qs ih =>
      show ((b.next q).run qs).textAt i = _
      rw [ih, textAt_next, Option.or_assoc, firstShown?]
      cases b.shown? i q <;> rfl

/-! ## Texts that are not stale -/

/-- Whether the text of an entry, if it has been made, is that of its formula. -/
def Fresh (b : Notebook) (i : Nat) : Prop :=
  ∀ e, b.entries[i]? = some e → ∀ text, e.text? = some text → text = e.formula.toFlatText

/-- Whether a run, from an empty notebook, replaces the formula of an entry only while there is no
text of it. -/
def ReplacesEarly (qs : List NotebookRequest) (i : Nat) : Prop :=
  ∀ before q after, qs = before ++ q :: after →
    (run {} before).replacement? i q ≠ none → (run {} before).textAt i = none

theorem shown?_eq_some {f : Formula} (h : b.shown? i q = some f) :
    b.replacement? i q = none ∧ ∃ e, b.entries[i]? = some e ∧ e.formula = f := by
  cases q with
  | display =>
      refine ⟨rfl, ?_⟩
      rw [shown?] at h
      split at h
      · next k e hcurrent =>
          split at h
          · next hki =>
              cases h
              exact ⟨e, hki ▸ getElem?_of_current hcurrent, rfl⟩
          · cases h
      · cases h
  | _ => cases h

theorem fresh_next (hfresh : b.Fresh i)
    (hearly : b.replacement? i q ≠ none → b.textAt i = none) : (b.next q).Fresh i := by
  intro e' he' text htext
  cases h : b.entries[i]? with
  | none =>
      rw [(new_entry_next h q).2 e' he'] at htext
      cases htext
  | some e =>
      obtain ⟨e'', he'', hformula, hmade⟩ := exists_entry_next h q
      rw [he', Option.some_inj] at he''
      subst he''
      rw [textAt, h, Option.bind_some] at hearly
      rw [hformula]
      cases hold : e.text? with
      | some old =>
          have hreplacement : b.replacement? i q = none := by
            by_contra hne
            rw [hearly hne] at hold
            cases hold
          rw [hmade, hold, Option.some_or, Option.some_inj] at htext
          rw [hreplacement, ← htext]
          exact hfresh e h old hold
      | none =>
          rw [hmade, hold, Option.none_or, Option.map_eq_some_iff] at htext
          obtain ⟨f, hshown, rfl⟩ := htext
          obtain ⟨hreplacement, x, hx, rfl⟩ := shown?_eq_some hshown
          rw [h, Option.some_inj] at hx
          rw [hreplacement, hx]
          rfl

theorem fresh_run {qs : List NotebookRequest} (h : ReplacesEarly qs i) :
    (run {} qs).Fresh i := by
  induction qs using List.reverseRecOn with
  | nil =>
      intro e he
      cases he
  | append_singleton qs q ih =>
      rw [run, List.foldl_append]
      refine fresh_next (ih fun before p after hqs => ?_) (h qs q [] rfl)
      exact h before p (after ++ [q]) (by rw [hqs]; simp)

theorem display_of_textAt (h : b.entries[i]? = some e) :
    e.display.1 = (b.textAt i).getD e.formula.toFlatText := by
  rw [textAt, h, Option.bind_some, Entry.display]
  cases e.text? <;> rfl

/-- **Displayed texts.** After any run of requests an entry is displayed with the text of the
formula that it had when it was first shown. Unless the formula was replaced later, that is the text
of its formula, and entries that are the same are then displayed alike. -/
theorem display_run (qs : List NotebookRequest) :
    (∀ i e, (run {} qs).entries[i]? = some e →
      e.display.1 = ((firstShown? i {} qs).getD e.formula).toFlatText) ∧
    (∀ i e, (run {} qs).entries[i]? = some e → ReplacesEarly qs i →
      e.display.1 = e.formula.toFlatText) ∧
    ∀ i j d e, (run {} qs).entries[i]? = some d → (run {} qs).entries[j]? = some e →
      ReplacesEarly qs i → ReplacesEarly qs j → d.same e = true → d.display.1 = e.display.1 := by
  have hfresh : ∀ i e, (run {} qs).entries[i]? = some e → ReplacesEarly qs i →
      e.display.1 = e.formula.toFlatText := by
    intro i e he hearly
    rw [display_of_textAt he, textAt, he, Option.bind_some]
    cases htext : e.text? with
    | none => rfl
    | some text => exact fresh_run hearly e he text htext
  refine ⟨?_, hfresh, ?_⟩
  · intro i e he
    rw [display_of_textAt he, textAt_run]
    show (Option.or none _).getD _ = _
    rw [Option.none_or]
    cases firstShown? i {} qs <;> rfl
  · intro i j d e hd he hdearly heearly hsame
    rw [hfresh i d hd hdearly, hfresh j e he heearly, Formula.toFlatText, Formula.toFlatText,
      Formula.writeFlat_eq_of_same hsame]

/-- An entry that is shown and then gets another formula is displayed as it was, and not like the
entry from which it has the formula. -/
theorem display_stale :
    ∃ d e, (run {} [.wrap (.var "y"), .save "b", .wrap (.var "x"), .display, .adopt "b"]).entries =
        [d, e] ∧
      e.formula.toFlatText = "y" ∧ e.display.1 = "x" ∧ d.same e = true ∧ d.display.1 = "y" :=
  ⟨_, _, rfl, by decide +kernel⟩

end Notebook
end Formulary
