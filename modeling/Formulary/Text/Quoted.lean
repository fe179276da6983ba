import Formulary.Text.Hidden
import Formulary.Text.Lines

/-!
# Quoted texts

A text inside a message stands between quotes. The quote is an apostrophe,
unless the text holds an apostrophe and no double quote. The quote in use and
the backslash are marked by a backslash; hidden characters are written by
letter or by number, so a quoted text always fits on one line.
-/

namespace Formulary.Text

def apostrophe : Char := '\x27'
def doubleQuote : Char := '\x22'
def backslash : Char := '\x5c'

/-- The quote that a text is set in. -/
def quoteFor (text : List Char) : Char :=
  if text.contains apostrophe && !text.contains doubleQuote then doubleQuote else apostrophe

def hexDigit (d : Nat) : Char :=
  if d < 10 then Char.ofNat (48 + d) else Char.ofNat (87 + d)

/-- The last `width` hexadecimal digits of a number. -/
def hexDigits : Nat → Nat → List Char
  | 0, _ => []
  | width + 1, n => hexDigits width (n / 16) ++ [hexDigit (n % 16)]

/-- A character by number, in the shortest of the three fixed widths that holds it. -/
def byNumber (c : Char) : List Char :=
  if c.toNat < 0x100 then backslash :: 'x' :: hexDigits 2 c.toNat
  else if c.toNat < 0x10000 then backslash :: 'u' :: hexDigits 4 c.toNat
  else backslash :: 'U' :: hexDigits 8 c.toNat

/-- One character of a text set in the quote `q`. -/
def escape (q c : Char) : List Char :=
  if c = q ∨ c = backslash then [backslash, c]
  else if c = '\t' then [backslash, 't']
  else if c = '\n' then [backslash, 'n']
  else if c = '\r' then [backslash, 'r']
  else if isHidden c then byNumber c
  else [c]

def quoted (text : List Char) : List Char :=
  let q := quoteFor text
  q :: text.flatMap (escape q) ++ [q]


/-- A list of texts, each quoted, between square brackets. -/
def quotedList (texts : List (List Char)) : List Char :=
  '[' :: (List.intercalate [',', ' '] (texts.map quoted)) ++ [']']

/-- The quoted form of a string. -/
def quote (s : String) : String := String.ofList (quoted s.toList)

/-! ## Quoted texts are on one line -/

theorem isHidden_of_endsLine {c : Char} (h : endsLine c = true) : isHidden c = true := by
  have hall : lineEnds.all isHidden = true := by decide
  exact List.all_eq_true.mp hall c (List.contains_iff_mem.mp h)

theorem endsLine_hexDigit {d : Nat} (h : d < 16) : endsLine (hexDigit d) = false := by
  have hall : ∀ d : Fin 16, endsLine (hexDigit d) = false := by decide
  exact hall ⟨d, h⟩

theorem onOneLine_hexDigits (width n : Nat) : OnOneLine (hexDigits width n) := by
  induction width generalizing n with
  | zero => exact List.forall_mem_nil _
  | succ width ih =>
      refine onOneLine_append.mpr ⟨ih _, onOneLine_cons.mpr ⟨?_, List.forall_mem_nil _⟩⟩
      exact endsLine_hexDigit (Nat.mod_lt n (by decide))

theorem onOneLine_byNumber (c : Char) : OnOneLine (byNumber c) := by
  unfold byNumber
  repeat' split
  all_goals
    refine onOneLine_cons.mpr ⟨by decide, onOneLine_cons.mpr ⟨by decide, ?_⟩⟩
    exact onOneLine_hexDigits _ _

theorem onOneLine_escape {q : Char} (hq : endsLine q = false) (c : Char) :
    OnOneLine (escape q c) := by
  unfold escape
  split
  · next h =>
      have hc : endsLine c = false := by
        obtain rfl | rfl := h
        · exact hq
        · decide
      exact onOneLine_cons.mpr ⟨by decide, onOneLine_cons.mpr ⟨hc, List.forall_mem_nil _⟩⟩
  · repeat' split
    · decide
    · decide
    · decide
    · exact onOneLine_byNumber c
    · next h =>
        refine onOneLine_cons.mpr ⟨?_, List.forall_mem_nil _⟩
        exact Bool.eq_false_iff.mpr fun hc => h (isHidden_of_endsLine hc)

theorem onOneLine_quoted (text : List Char) : OnOneLine (quoted text) := by
  have hq : endsLine (quoteFor text) = false := by
    unfold quoteFor
    split <;> decide
  have hinside : OnOneLine (text.flatMap (escape (quoteFor text))) := by
    intro c hc
    obtain ⟨d, -, hd⟩ := List.mem_flatMap.mp hc
    exact onOneLine_escape hq d c hd
  refine onOneLine_cons.mpr ⟨hq, onOneLine_append.mpr ⟨hinside, ?_⟩⟩
  exact onOneLine_cons.mpr ⟨hq, List.forall_mem_nil _⟩

theorem onOneLine_quotedList (texts : List (List Char)) : OnOneLine (quotedList texts) := by
  have hinside : OnOneLine (List.intercalate [',', ' '] (texts.map quoted)) := by
    induction texts with
    | nil => exact List.forall_mem_nil _
    | cons text texts ih =>
        have hquoted := onOneLine_quoted text
        cases texts with
        | nil =>
            rw [List.map_singleton, List.intercalate_singleton]
            exact hquoted
        | cons next texts =>
            have hcomma : OnOneLine [',', ' '] := by decide
            rw [List.map_cons, List.map_cons, List.intercalate_cons_cons]
            exact onOneLine_append.mpr ⟨onOneLine_append.mpr ⟨hquoted, hcomma⟩, ih⟩
  exact onOneLine_cons.mpr ⟨by decide, onOneLine_append.mpr ⟨hinside, by decide⟩⟩

example : quote "it's\u200b" = "\"it's\\u200b\"" := by decide +kernel

end Formulary.Text
