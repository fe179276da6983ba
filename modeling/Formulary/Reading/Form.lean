import Formulary.Reading.Bracketed
import Formulary.Reading.Flat

/-!
# Written forms

The three forms in which a formula can be given, by name, and what reading one
leaves to note: an accepted bracketed text is noted, and of a flat text what was
set aside or left over. Texts are quoted in a note, so that it stays on one line.
-/

namespace Formulary

inductive Form where
  | bracketed (placement : Placement)
  | flat
deriving DecidableEq, Repr

namespace Form

def all : List Form := [.bracketed .first, .bracketed .last, .flat]

def name : Form → String
  | .bracketed .first => "prefix"
  | .bracketed .last => "postfix"
  | .flat => "flat"

def ofName? (name : String) : Option Form := all.find? fun f => f.name == name

end Form

/-- What came of reading a text. A flat text may hold no formula at all. -/
structure ReadResult where
  result : Except ParseError (Option Formula)
  notes : List String

namespace Form

/-- What there is to note about a flat text. -/
def flatNotes (text : String) (o : Flat.Outcome) : List String :=
  let about := "Flat postfix input " ++ Text.quote text
  let ignored := String.ofList (Text.quotedList (o.ignored.map String.toList))
  (if o.ignored.isEmpty then [] else [about ++ ": ignored tokens " ++ ignored]) ++
  (if o.height = 1 then [] else [about ++ " left " ++ toString o.height ++ " items on the stack"])

/-- A text read in one of the forms, with the given operations. -/
def readWith (r : Registry) (form : Form) (text : String) : ReadResult :=
  match form with
  | .bracketed p =>
    match (Dialect.mk p r).parse text with
    | .error e => ⟨.error e, []⟩
    | .ok t => ⟨.ok (some t), ["Parsed " ++ form.name ++ " expression " ++ Text.quote text]⟩
  | .flat =>
    let o := Flat.parse r text
    ⟨.ok o.formula?, flatNotes text o⟩

theorem onOneLine_quote (text : String) : Text.OnOneLine (Text.quote text).toList := by
  rw [Text.quote, String.toList_ofList]
  exact Text.onOneLine_quoted _

theorem onOneLine_of_mem_flatNotes {text note : String} {o : Flat.Outcome}
    (h : note ∈ flatNotes text o) : Text.OnOneLine note.toList := by
  have hquote := onOneLine_quote text
  rcases List.mem_append.mp h with h | h
  · split at h
    · contradiction
    · have hignored := Text.onOneLine_quotedList (o.ignored.map String.toList)
      rw [List.mem_singleton.mp h]
      simp only [String.toList_append, String.toList_ofList, Text.onOneLine_append]
      exact ⟨⟨⟨by decide, hquote⟩, by decide⟩, hignored⟩
  · split at h
    · contradiction
    · have hheight := Text.onOneLine_toString o.height
      rw [List.mem_singleton.mp h]
      simp only [String.toList_append, Text.onOneLine_append]
      exact ⟨⟨⟨⟨by decide, hquote⟩, by decide⟩, hheight⟩, by decide⟩

/-- Whatever text is read, each note is on one line. -/
theorem onOneLine_of_mem_notes {r : Registry} {form : Form} {text note : String}
    (h : note ∈ (form.readWith r text).notes) : Text.OnOneLine note.toList := by
  cases form with
  | flat => exact onOneLine_of_mem_flatNotes h
  | bracketed p =>
      cases hparse : (Dialect.mk p r).parse text with
      | error e => simp [readWith, hparse] at h
      | ok t =>
          obtain rfl : note = _ := by simpa only [readWith, hparse, List.mem_singleton] using h
          have hname : Text.OnOneLine (name (.bracketed p)).toList := by cases p <;> decide
          simp only [String.toList_append, Text.onOneLine_append]
          exact ⟨⟨⟨by decide, hname⟩, by decide⟩, onOneLine_quote text⟩

/-- A text read with the standard operations. -/
def read (form : Form) (text : String) : ReadResult := form.readWith Registry.standard text

end Form
end Formulary
