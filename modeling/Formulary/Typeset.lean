import Formulary.Number.Layout
import Formulary.Number.Simplest
import Formulary.Value.Traced

/-!
# Typeset formulas

The typeset form of leaves and of numbers. A rational is set as a fraction with
its sign in front, and a formula of constants as the number that it means. A
broken constant is set as a decimal of at most fifteen digits, positional for
exponents of the leading digit from -4 to 14.

Other than by broken constants a number that is set is rational. Where it comes
from irrational ones it is known only closely, and set as the simplest rational
close by; the base of the natural logarithm has a letter of its own.
-/

namespace Formulary

/-- Why a number cannot be written. -/
inductive WritingFault where
  | value (fault : RealFault)
  /-- an integer has too many digits -/
  | tooLong
deriving DecidableEq, Repr

namespace Typeset

open Number Binary64

def braced (text : List Char) : List Char := '\x7b' :: text ++ ['\x7d']

def integer (n : Int) : Except WritingFault (List Char) :=
  match integerText? n with
  | some text => .ok text
  | none => .error .tooLong

/-- A rational on one line, a stroke between numerator and denominator. -/
def ratio (q : Rat) : Except WritingFault (List Char) := do
  let num ← integer q.num
  if q.den = 1 then return num
  return num ++ '/' :: (← integer q.den)

/-- A rational as a fraction. -/
def fraction (q : Rat) : Except WritingFault (List Char) := do
  if q.den = 1 then integer q.num
  else
    let num ← integer q.num.natAbs
    let den ← integer q.den
    let sign := if q.num < 0 then "- ".toList else []
    return sign ++ "\\frac".toList ++ braced num ++ braced den

/-- A finite double as a decimal. -/
def decimal (p : Parts) : List Char :=
  if p.mantissa = 0 then ['0']
  else
    let x := Spaced.ofParts p
    let d := (significant .awayFromZero 15 x.numerator x.denominator).strip
    if -4 ≤ d.lead ∧ d.lead < 15 then d.positional
    else
      let point := if (digits d.significand).length = 1 then ".0".toList else []
      d.pointed ++ point ++ " \\cdot 10^".toList ++ braced (integerDigits d.lead)

def infinity : List Char := "\\infty".toList

def double (x : Float) : List Char :=
  if x.isNaN then "\\text".toList ++ braced "NaN".toList
  else
    let p := parts x
    let magnitude := if x.isInf then infinity else decimal p
    if p.negative ∧ ¬(x.isFinite ∧ p.mantissa = 0) then '-' :: magnitude else magnitude

def quantity : Quantity → Except WritingFault (List Char)
  | .exact q => fraction q
  | .approximate x decimal =>
    if decimal || !x.isFinite then .ok (double x)
    else if x == eulerNumber then .ok ['e']
    else if x == -eulerNumber then .ok "- e".toList
    else fraction (simplestNear x)
  | .pole => .ok ("\\tilde".toList ++ braced infinity)
  | .nonReal _ _ | .unknown => .error (.value .notReal)

/-- Values for the names in a formula that do not matter for what it means: numbers at which
nothing is zero or cancels by chance. -/
def somewhere (name : String) : Rat :=
  match argumentIndex? name with
  | some i => mkRat (101 + i) (7 + 2 * i)
  | none => mkRat 107 17

/-- The typeset form of a formula: a name as it is, anything else as the number it means. -/
def formula : Formula → Except WritingFault (List Char)
  | .var name => .ok name.toList
  | t =>
    match t.quantityAt somewhere with
    | .error fault => .error (.value (.meaning fault))
    | .ok q => quantity q

example : (fraction (-3 / 9)).toOption = some "- \\frac\x7b1\x7d\x7b3\x7d".toList := by
  decide +kernel

end Typeset
end Formulary
