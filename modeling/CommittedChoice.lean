import CommittedChoice.Arithmetic
import CommittedChoice.Proofs.Lexer.Span
import CommittedChoice.Proofs.OrderedChoice
import CommittedChoice.Proofs.FirstCandidate
import CommittedChoice.Proofs.Arithmetic.Operation
import CommittedChoice.Proofs.Consumption
import CommittedChoice.Proofs.Arithmetic.Phrase
import CommittedChoice.Proofs.Arithmetic.Language
import CommittedChoice.Proofs.Arithmetic.OperatorChain
import CommittedChoice.Proofs.Lexer.Numeral
import CommittedChoice.Proofs.Arithmetic.Excerpt
import CommittedChoice.Proofs.SingleCandidate
import CommittedChoice.Proofs.Termination
import CommittedChoice.Proofs.Parser.Repetition
import CommittedChoice.Proofs.RecursiveRepetition
import CommittedChoice.Proofs.Parser.Separated
import CommittedChoice.Proofs.Lexer.Listing
import CommittedChoice.Proofs.Parser.Sequencing
import CommittedChoice.Proofs.Parser.Mapping
import CommittedChoice.Proofs.Parser.Choice
import CommittedChoice.Proofs.Arithmetic.ForeignText
import CommittedChoice.Proofs.Entry
import CommittedChoice.Proofs.Lexer.Layout
import CommittedChoice.Proofs.Lexer.Literal
import CommittedChoice.Proofs.Lexer.LongestRun
import CommittedChoice.Proofs.NestedBrackets
import CommittedChoice.Proofs.Arithmetic.Descent
