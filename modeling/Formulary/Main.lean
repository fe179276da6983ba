import Formulary.Report
import Std.Time.DateTime.Timestamp

/-!
# The command line

Prints the report that the arguments ask for. Notes go to the standard error
stream with the time of day in front, and so does the reason why a report ended
early, which the exit code also tells.
-/

namespace Formulary

/-- The time of day in hours, minutes and seconds, from seconds counted since a midnight. -/
def timeOfDay (seconds : Nat) : String :=
  let twoDigits (n : Nat) := String.ofList (Number.digits (100 + n)).tail
  twoDigits (seconds / 3600 % 24) ++ ":" ++ twoDigits (seconds / 60 % 60) ++ ":" ++
    twoDigits (seconds % 60)

example : timeOfDay (86400 + 3600 * 13 + 61) = "13:01:01" := by decide +kernel

/-- Prints the report for the arguments of the command line. -/
def printReport (args : List String) : IO UInt32 := do
  let report := Report.ofArguments args
  for note in report.notes do
    let now ← Std.Time.Timestamp.now
    let clock := timeOfDay now.toSecondsSinceUnixEpoch.toInt.toNat
    IO.eprintln (Journal.line clock (Journal.recordText note))
  for line in report.lines do
    IO.println line
  match report.fault? with
  | none => return 0
  | some fault =>
    IO.eprintln fault.message
    return 1

end Formulary

def main (args : List String) : IO UInt32 := Formulary.printReport args
