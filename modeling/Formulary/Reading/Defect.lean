/-!
# Defects of a text

Why a bracketed text is not a formula: the defects that a reader can meet, the
family each belongs to, and how it is reported. Families form a small tree: the
defects of a group's operation have more special families below them.
-/

namespace Formulary

/-- Families of defects, from the general one to the special ones. -/
inductive DefectFamily where
  | general
  /-- broken structure: an empty or unknown token, a bracket left open, text left over -/
  | format
  /-- a closed group without an operation, or with several -/
  | operation
  /-- the operation of a group is not where the notation has it -/
  | operationPosition
  /-- a group has a number of operands that its operation does not take -/
  | argumentCount
deriving DecidableEq, Repr

namespace DefectFamily

def all : List DefectFamily :=
  [.general, .format, .operation, .operationPosition, .argumentCount]

def name : DefectFamily → String
  | .general => "ParseError"
  | .format => "InvalidFormatError"
  | .operation => "InvalidOperationError"
  | .operationPosition => "InvalidOperationPositionError"
  | .argumentCount => "InvalidArgumentCountError"

def ofName? (name : String) : Option DefectFamily := all.find? fun f => f.name == name

/-- The families above, the nearest first. -/
def ancestors : DefectFamily → List DefectFamily
  | .general => []
  | .format | .operation => [.general]
  | .operationPosition | .argumentCount => [.operation, .general]

end DefectFamily

/-- What is reported of a defect: its family, a text, and where it was met if that is known. -/
structure DefectReport where
  family : DefectFamily
  text : String
  position : Option Int

/-- The text of a report with the position, if there is one. -/
def DefectReport.message (r : DefectReport) : String :=
  match r.position with
  | none => r.text
  | some n => r.text ++ " at pos " ++ toString n

/-- What can be wrong with a bracketed text. -/
inductive Defect where
  | emptyToken
  | unknownToken (word : String)
  | unclosedGroup
  | textLeftOver
  | bareOperation (symbol : String)
  | operationCount (count : Nat)
  | operationPosition (symbol : String)
  | argumentCount (count : Nat) (symbol : String)
deriving DecidableEq, Repr

namespace Defect

def family : Defect → DefectFamily
  | .operationCount _ => .operation
  | .operationPosition _ => .operationPosition
  | .argumentCount _ _ => .argumentCount
  | _ => .format

def text : Defect → String
  | .emptyToken => "Empty token"
  | .unknownToken word => "Unknown token: " ++ word
  | .unclosedGroup => ") expected"
  | .textLeftOver => "Expected end of expression"
  | .bareOperation symbol => "Invalid expression which contains only operation " ++ symbol
  | .operationCount count =>
      "Invalid expression (expected one operation per (...) block but parsed " ++
        toString count ++ " operations)"
  | .operationPosition symbol => "Invalid operation position (operation: " ++ symbol ++ ")"
  | .argumentCount count symbol =>
      "Invalid amount of arguments (" ++ toString count ++ ") for operation " ++ symbol

end Defect

/-- A defect and the offset in the text, in characters, where it is reported. -/
structure ParseError where
  defect : Defect
  offset : Nat
deriving DecidableEq, Repr

def ParseError.report (e : ParseError) : DefectReport where
  family := e.defect.family
  text := e.defect.text
  position := some e.offset

example : (ParseError.mk .unclosedGroup 6).report.message = ") expected at pos 6" := by
  decide +kernel

end Formulary
