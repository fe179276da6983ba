import Formulary.Number.Decimal

/-!
# Writing doubles

The layouts in which doubles are written. `exact` identifies the double: the
fewest digits, positional for exponents of the leading digit from -4 to 15.
`rounded` keeps ten digits in exponent form. `constant` is the form inside a
formula: an integral value is written as a plain integer however large it is,
so that it can be read back as a literal.
-/

namespace Formulary.Number

open Binary64

/-- The exponent of the leading digit. -/
def Decimal.lead (d : Decimal) : Int := digitCount d.significand - 1 + d.exponent

/-- A decimal without exponent, with at least one digit on each side of the point. -/
def Decimal.positional (d : Decimal) : List Char :=
  let ds := digits d.significand
  if 0 ≤ d.exponent then ds ++ List.replicate d.exponent.toNat '0' ++ ['.', '0']
  else
    let places := (-d.exponent).toNat
    let padded := List.replicate (places + 1 - ds.length) '0' ++ ds
    padded.take (padded.length - places) ++ '.' :: padded.drop (padded.length - places)

/-- The digits with a point after the first one, and no point after a single digit. -/
def Decimal.pointed (d : Decimal) : List Char :=
  match digits d.significand with
  | [] => []
  | [c] => [c]
  | c :: cs => c :: '.' :: cs

/-- An exponent with its sign and at least two digits. -/
def exponentText (e : Int) : List Char :=
  let ds := digits e.natAbs
  'e' :: (if e < 0 then '-' else '+') :: (List.replicate (2 - ds.length) '0' ++ ds)

/-- A double from the text of its absolute value when it is finite. -/
def written (x : Float) (finite : Parts → List Char) : List Char :=
  if x.isNaN then ['n', 'a', 'n']
  else
    let p := parts x
    let magnitude := if x.isInf then ['i', 'n', 'f'] else finite p
    if p.negative then '-' :: magnitude else magnitude

/-- The text that identifies a double. -/
def exact (x : Float) : List Char :=
  written x fun p =>
    if p.mantissa = 0 then ['0', '.', '0']
    else
      let d := fewest p
      if -4 ≤ d.lead ∧ d.lead < 16 then d.positional
      else d.pointed ++ exponentText d.lead

/-- A double to ten digits, in exponent form. -/
def rounded (x : Float) : List Char :=
  written x fun p =>
    if p.mantissa = 0 then ['0', '.'] ++ List.replicate 9 '0' ++ exponentText 0
    else
      let d := significant .toEven 10 (Spaced.ofParts p).numerator (Spaced.ofParts p).denominator
      d.pointed ++ exponentText d.lead

/-- A double as a constant of a formula. -/
def constant (x : Float) : List Char :=
  if isIntegral x then
    let p := parts x
    integerDigits (if p.negative then -(p.natValue : Int) else p.natValue)
  else exact x

end Formulary.Number
