import Formulary.Number.Decimal
import Formulary.Number.Literal
import Formulary.Text.Blank

/-!
# Reading numbers from free text

Numbers given by hand: digits with an optional point and an optional exponent,
single underscores between digits, or a word for infinity or for no number, in
either case, with blanks around. Digits of every script count. The value is the
double nearest to the exact decimal.
-/

namespace Formulary.Number

/-- The zeros of the decimal digits of all scripts; each is followed by the other nine. -/
def digitZeros : List Nat :=
  [0x30, 0x660, 0x6F0, 0x7C0, 0x966, 0x9E6, 0xA66, 0xAE6, 0xB66, 0xBE6, 0xC66, 0xCE6,
   0xD66, 0xDE6, 0xE50, 0xED0, 0xF20, 0x1040, 0x1090, 0x17E0, 0x1810, 0x1946, 0x19D0,
   0x1A80, 0x1A90, 0x1B50, 0x1BB0, 0x1C40, 0x1C50, 0xA620, 0xA8D0, 0xA900, 0xA9D0,
   0xA9F0, 0xAA50, 0xABF0, 0xFF10, 0x104A0, 0x10D30, 0x11066, 0x110F0, 0x11136,
   0x111D0, 0x112F0, 0x11450, 0x114D0, 0x11650, 0x116C0, 0x11730, 0x118E0, 0x11950,
   0x11C50, 0x11D50, 0x11DA0, 0x16A60, 0x16AC0, 0x16B50, 0x1D7CE, 0x1D7D8, 0x1D7E2,
   0x1D7EC, 0x1D7F6, 0x1E140, 0x1E2F0, 0x1E950, 0x1FBF0]

/-- A digit of any script as the ASCII digit of the same value; other characters unchanged. -/
def asciiDigit (c : Char) : Char :=
  match digitZeros.find? fun z => decide (z ≤ c.toNat) && decide (c.toNat ≤ z + 9) with
  | some z => digitChar (c.toNat - z)
  | none => c

/-- Blanks that may stand around a number: all but the four information separators. -/
def isMargin (c : Char) : Bool :=
  Text.isBlank c && !(decide (0x1C ≤ c.toNat) && decide (c.toNat ≤ 0x1F))

def trim (cs : List Char) : List Char :=
  ((cs.dropWhile isMargin).reverse.dropWhile isMargin).reverse

/-- The text without underscores, each of which must stand between two digits. -/
def dropUnderscores (cs : List Char) : Option (List Char) :=
  go false cs
where
  go (afterDigit : Bool) : List Char → Option (List Char)
    | [] => some []
    | '_' :: d :: cs =>
      if afterDigit && d.isDigit then (go true cs).map (d :: ·) else none
    | c :: cs => if c = '_' then none else (go c.isDigit cs).map (c :: ·)

/-- The number `m * 10 ^ e`, rounded to a double. Exponents so large that the result is
certain are not worked out. -/
def scaled (negative : Bool) (m : Nat) (e : Int) : Float :=
  if m = 0 then Binary64.ofRatio negative 0 1
  else if 400 < e then if negative then Binary64.negInfinity else Binary64.posInfinity
  else if e < -((digits m).length + 400 : Int) then Binary64.ofRatio negative 0 1
  else Binary64.ofRatio negative (m * power 10 e.toNat) (power 10 (-e).toNat)

/-- An exponent part: nothing, or the letter with an optional sign and digits. -/
def exponentPart? : List Char → Option Int
  | [] => some 0
  | c :: cs =>
    if c = 'e' ∨ c = 'E' then
      (integer? cs).map fun (negative, n) => if negative then -(n : Int) else n
    else none

/-- An unsigned decimal with optional point and exponent. -/
def decimal? (cs : List Char) : Option Decimal :=
  let whole := cs.takeWhile Char.isDigit
  let rest := cs.dropWhile Char.isDigit
  let (places, rest) := match rest with
    | '.' :: rest => (rest.takeWhile Char.isDigit, rest.dropWhile Char.isDigit)
    | rest => ([], rest)
  if whole.isEmpty && places.isEmpty then none
  else (exponentPart? rest).map fun e => ⟨ofDigits (whole ++ places), e - places.length⟩

/-- An unsigned decimal as a double. -/
def unsigned? (negative : Bool) (cs : List Char) : Option Float :=
  (decimal? cs).map fun d => scaled negative d.significand d.exponent

/-- The double that a text given by hand spells. -/
def number? (s : String) : Option Float := do
  let cs ← dropUnderscores (trim (s.toList.map asciiDigit))
  let (negative, cs) := splitSign cs
  let name := String.ofList (cs.map Char.toLower)
  if name = "inf" ∨ name = "infinity" then
    return if negative then Binary64.negInfinity else Binary64.posInfinity
  else if name = "nan" then return Binary64.notANumber
  else unsigned? negative cs

example : number? " 1_000 " = some 1000.0 ∧ number? "1__0" = none := by decide +kernel

end Formulary.Number
