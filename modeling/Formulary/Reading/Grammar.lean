import Formulary.Reading.Bracketed

/-!
# The bracketed grammar

What a dialect accepts, said over tokens and without a reader: a word for a leaf
is a formula, and so is a group of a word for an operation and as many formulas
as the operation takes, the word where the placement has it.
-/

namespace Formulary

/-- The tokens of a group: brackets around the operation's word and the operands' tokens. -/
def Placement.group (p : Placement) (word : List Char) (operands : List Token) : List Token :=
  match p with
  | .first => [.opening, .word word] ++ operands ++ [.closing]
  | .last => [.opening] ++ operands ++ [.word word, .closing]

/-- What a word of a bracketed text stands for in a dialect: an argument's name or a literal
before an operation. -/
inductive WordMeans (d : Dialect) (word : List Char) : Item → Prop
  | argument : String.ofList word ∈ argumentNames →
      WordMeans d word (.formula (.var (String.ofList word)))
  | literal {value : Float} : String.ofList word ∉ argumentNames →
      Number.literal? word = some value → WordMeans d word (.formula (.const value))
  | operation {arity : Arity} : String.ofList word ∉ argumentNames →
      Number.literal? word = none → d.registry.arity? (String.ofList word) = some arity →
      WordMeans d word (.operator (String.ofList word))

mutual
/-- The tokens of a formula. -/
inductive Derives (d : Dialect) : List Token → Formula → Prop
  | leaf {word : List Char} {t : Formula} : WordMeans d word (.formula t) →
      Derives d [.word word] t
  | group {word : List Char} {symbol : String} {arity : Arity} {tokens : List Token}
      {operands : List Formula} : WordMeans d word (.operator symbol) →
      d.registry.arity? symbol = some arity → arity.admits operands.length = true →
      DerivesAll d tokens operands →
      Derives d (d.placement.group word tokens) (.apply symbol operands)
/-- The tokens of several formulas, one after the other. -/
inductive DerivesAll (d : Dialect) : List Token → List Formula → Prop
  | nil : DerivesAll d [] []
  | cons {here later : List Token} {t : Formula} {ts : List Formula} :
      Derives d here t → DerivesAll d later ts → DerivesAll d (here ++ later) (t :: ts)
end

end Formulary
