import Formulary.Formula.Derivative
import Formulary.Journal
import Formulary.Number.Reading
import Formulary.Value.Evaluation

/-!
# Reports

The command line's work: read a formula in one of the forms, show how it is
written, and give its value and its derivatives at some numbers. A report is a
list of lines; it ends early when something cannot be done, and then says why.
-/

namespace Formulary

/-- Why a report ends early. -/
inductive ReportFault where
  | unknownForm (name : String)
  | badNumber (text : String)
  | derivative (fault : DerivativeFault)
  | evaluation (fault : EvalFault)

def DerivativeFault.message : DerivativeFault → String
  | .unknownOperation symbol => "unknown operation " ++ Text.quote symbol
  | .operandCount symbol count =>
      "operation " ++ Text.quote symbol ++ " has " ++ toString count ++ " operands"

def EvalFault.message : EvalFault → String
  | .unknownOperation symbol => "unknown operation " ++ Text.quote symbol
  | .unknownName name => "unknown variable " ++ Text.quote name
  | .missingArgument position => "no argument at position " ++ toString position
  | .argument _ => "an argument is not an array of numbers"
  | .operandCount symbol count =>
      "operation " ++ Text.quote symbol ++ " has " ++ toString count ++ " operands"
  | .noOperands symbol => "operation " ++ Text.quote symbol ++ " has no operands"
  | .shapeMismatch => "the shapes of the arguments do not fit together"
  | .tooManyDimensions => "an argument has too many dimensions for a mean"

/-- The wording for who asked for the report. -/
def ReportFault.message : ReportFault → String
  | .unknownForm name => "unknown form " ++ Text.quote name
  | .badNumber text => "not a number: " ++ Text.quote text
  | .derivative fault => fault.message
  | .evaluation fault => fault.message

structure Report where
  lines : List String := []
  notes : List String := []
  fault? : Option ReportFault := none

namespace Report

/-- A report followed by what the next part adds, unless it has ended. -/
def andThen (r : Report) (more : Report) : Report :=
  match r.fault? with
  | some _ => r
  | none => ⟨r.lines ++ more.lines, r.notes ++ more.notes, more.fault?⟩

def ofLine (s : String) : Report := { lines := [s] }
def ofFault (fault : ReportFault) : Report := { fault? := some fault }

def joinAll (parts : List Report) : Report := parts.foldl andThen {}

/-- Numbers between parentheses, a comma after a single one. -/
def tuple (numbers : List Float) : String :=
  let texts := numbers.map fun x => String.ofList (Number.exact x)
  match texts with
  | [s] => "(" ++ s ++ ",)"
  | _ => "(" ++ String.intercalate ", " texts ++ ")"

/-- A label and the value of a formula at some numbers. -/
def valueLine (label : String) (numbers : List Float) (t : Formula) : Report :=
  match t.evaluateAt (numbers.map .number) with
  | .error fault => ofFault (.evaluation fault)
  | .ok g =>
    { lines := g.entries.map fun x =>
        label ++ " at " ++ tuple numbers ++ ": " ++ String.ofList (Number.exact x) }

def derivativeLine (numbers : List Float) (t : Formula) (name : String) : Report :=
  match t.derivative name with
  | .error fault => ofFault (.derivative fault)
  | .ok d => valueLine ("  d/d" ++ name) numbers d

/-- How a formula is written, its value, and its derivatives by every argument. -/
def ofFormula (numbers : List Float) (t : Formula) : Report :=
  joinAll ([
    ofLine ("  to_string: " ++ t.toFlatText),
    ofLine ("  prefix:    " ++ t.toText .first),
    ofLine ("  postfix:   " ++ t.toText .last),
    valueLine "  value" numbers t] ++
    argumentNames.map (derivativeLine numbers t))

/-- What became of a text that was read. -/
def ofRead (numbers : List Float) (r : ReadResult) : Report :=
  let report := match r.result with
    | .error e => ofLine ("  rejected: " ++ e.report.family.name ++ ": " ++ e.report.message)
    | .ok none => ofLine "  no expression found"
    | .ok (some t) => ofFormula numbers t
  { report with notes := r.notes }

/-- A text in a form given by name. -/
def describe (formName text : String) (numbers : List Float) : Report :=
  (ofLine (formName ++ " input: " ++ text)).andThen <|
    match Form.ofName? formName with
    | none => ofFault (.unknownForm formName)
    | some form => ofRead numbers (form.read text)

/-- What is reported when no text is given. -/
def samples : List (String × String) :=
  [("prefix", "(+ (* x x) (log 2 y))"),
   ("postfix", "((x y z mean) (x 1 -) pow)"),
   ("flat", "2 5 11 var x *"),
   ("prefix", "(x + y)"),
   ("postfix", "(x y +")]

def sampleNumbers : List Float := [2, 3, 0.5]
def usualNumbers : List Float := [1, 2, 3]

/-- The numbers among the arguments, or the first that is none. -/
def readNumbers (texts : List String) : Except ReportFault (List Float) :=
  texts.mapM fun s =>
    match Number.number? s with
    | some x => .ok x
    | none => .error (.badNumber s)

def verboseOption : String := "--verbose"

/-- The report for the arguments of the command line: a form and a text, and up to three
numbers; with less than a form and a text, the samples. Notes are kept only when asked for. -/
def ofArguments (args : List String) : Report :=
  let report := match args.filter (· != verboseOption) with
    | form :: text :: rest =>
      match readNumbers (rest.take 3) with
      | .error fault => ofFault fault
      | .ok numbers => describe form text (if numbers.isEmpty then usualNumbers else numbers)
    | _ => joinAll (samples.map fun (form, text) => describe form text sampleNumbers)
  if args.contains verboseOption then report else { report with notes := [] }

end Report
end Formulary
