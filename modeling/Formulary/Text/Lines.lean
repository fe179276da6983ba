/-!
# Lines

A text is cut into lines after each line end: a line feed, a carriage return, both
in this order, a vertical tab, a form feed, one of the three greater information
separators, or one of the three line ends that are not ASCII. A line end at the
end of the text opens no further line.
-/

namespace Formulary.Text

/-- The characters that end a line. -/
def lineEnds : List Char :=
  ['\n', '\r', '\x0b', '\x0c', '\x1c', '\x1d', '\x1e', '\x85', '\u2028', '\u2029']

def endsLine (c : Char) : Bool := lineEnds.contains c

/-- The lines of a text, without their ends. -/
def lines : List Char → List (List Char)
  | [] => []
  | '\r' :: '\n' :: cs => [] :: lines cs
  | c :: cs =>
    if endsLine c then [] :: lines cs
    else match lines cs with
      | [] => [[c]]
      | l :: ls => (c :: l) :: ls

/-- No line ends in a text. -/
def OnOneLine (text : List Char) : Prop := ∀ c ∈ text, endsLine c = false

instance (text : List Char) : Decidable (OnOneLine text) := List.decidableBAll _ _

theorem onOneLine_cons {c : Char} {cs : List Char} :
    OnOneLine (c :: cs) ↔ endsLine c = false ∧ OnOneLine cs :=
  List.forall_mem_cons

theorem onOneLine_append {s t : List Char} : OnOneLine (s ++ t) ↔ OnOneLine s ∧ OnOneLine t :=
  List.forall_mem_append

/-- The lines of a stream that texts are printed to, each followed by a line feed. A text with line
ends in it takes several. -/
def printed (texts : List String) : List (List Char) :=
  lines (texts.flatMap fun s => s.toList ++ ['\n'])

theorem onOneLine_toString (n : Nat) : OnOneLine (toString n).toList := by
  have hall : lineEnds.all (fun c => !c.isDigit) = true := by decide
  intro c hc
  refine Bool.eq_false_iff.mpr fun hends => ?_
  have hnot := List.all_eq_true.mp hall c (List.contains_iff_mem.mp hends)
  rw [Nat.toString_eq_repr, Nat.repr_eq_ofList_toDigits, String.toList_ofList] at hc
  have hdigit : c.isDigit = true := Nat.isDigit_of_mem_toDigits (by decide) (by decide) hc
  rw [hdigit] at hnot
  exact Bool.false_ne_true hnot

theorem lines_append {text : List Char} (h : OnOneLine text) (rest : List Char) :
    lines (text ++ '\n' :: rest) = text :: lines rest := by
  induction text with
  | nil => simp [lines, endsLine, lineEnds]
  | cons c cs ih =>
      obtain ⟨hc, hcs⟩ := onOneLine_cons.mp h
      have hreturn : c ≠ '\r' := by
        rintro rfl
        contradiction
      rw [List.cons_append, lines, if_neg (Bool.eq_false_iff.mp hc), ih hcs]
      · rintro _ rfl
        exact absurd rfl hreturn

/-- Texts that are on one line each are printed on one line each. -/
theorem printed_eq {texts : List String} (h : ∀ s ∈ texts, OnOneLine s.toList) :
    printed texts = texts.map String.toList := by
  induction texts with
  | nil => rfl
  | cons s texts ih =>
      obtain ⟨hs, htexts⟩ := List.forall_mem_cons.mp h
      rw [printed, List.flatMap_cons, List.append_assoc, List.singleton_append, lines_append hs,
        List.map_cons, ← ih htexts, printed]

example : lines "a\r\nb\n\x1fc\r".toList = [['a'], ['b'], ['\x1f', 'c']] := by decide

end Formulary.Text
