import Formulary.Comparison
import Formulary.Formula.Memo
import Formulary.Formula.Validity
import Formulary.Main
import Formulary.Notebook
import Formulary.Reading.Grammar
import Formulary.Reading.Positional
import Formulary.Reading.Reversal
import Formulary.Reading.Scan
import Formulary.Typeset
import Formulary.Proofs.Reading.Closing
import Formulary.Proofs.Reading.Descent
import Formulary.Proofs.Reading.Derivations
import Formulary.Proofs.Reading.EarliestDefect
import Formulary.Proofs.Number.Bits
import Formulary.Proofs.Number.Integral
import Formulary.Proofs.Number.Spelling
import Formulary.Proofs.Formula.Preorder
import Formulary.Proofs.Reading.Written
import Formulary.Proofs.Reading.Roundtrip
import Formulary.Proofs.Number.Counts
import Formulary.Proofs.Value.Meaning
import Formulary.Proofs.Derivative.Correct
import Formulary.Proofs.Reading.FlatForm
import Formulary.Proofs.Value.Faults
import Formulary.Proofs.Reading.Conservation
import Formulary.Proofs.Formula.LeftSpine
import Formulary.Proofs.Reading.Unbracketed
import Formulary.Proofs.Reading.Agreement
import Formulary.Proofs.Derivative.Closure
import Formulary.Proofs.Number.Zeros
import Formulary.Proofs.Value.Shapes
import Formulary.Proofs.Value.Broadcast
import Formulary.Proofs.Value.Pointwise
import Formulary.Proofs.Value.Verdicts
import Formulary.Proofs.Notebook.Display
import Formulary.Proofs.Reading.Rereading
import Formulary.Proofs.Reading.Overflow
import Formulary.Proofs.Reading.Occurrence
import Formulary.Proofs.Derivative.Readable
import Formulary.Proofs.Number.Intervals
import Formulary.Proofs.Number.Layouts
import Formulary.Proofs.Formula.Sameness
import Formulary.Proofs.Formula.Comparison
import Formulary.Proofs.Derivative.Defined
import Formulary.Proofs.Number.Finite
import Formulary.Proofs.Number.Predecessor
import Formulary.Proofs.Value.Lawful
import Formulary.Proofs.Derivative.Polynomials
import Formulary.Proofs.Derivative.Singularities
import Formulary.Proofs.Reading.Replay
import Formulary.Proofs.Reading.Mirror
import Formulary.Proofs.Journal.Delivery
import Formulary.Proofs.Value.Exact
import Formulary.Proofs.Derivative.Reads
import Formulary.Proofs.Reading.Shortage
import Formulary.Proofs.Value.Expansion
import Formulary.Proofs.Derivative.RationalFunctions
import Formulary.Proofs.Derivative.Mixed
import Formulary.Proofs.Formula.Levels
import Formulary.Proofs.Derivative.Growth
import Formulary.Proofs.Value.Variance
import Formulary.Proofs.Formula.Memory
import Formulary.Proofs.Number.Literals
import Formulary.Proofs.Number.Fractions
import Formulary.Proofs.Reading.Advance
