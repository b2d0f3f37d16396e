import ExactFormula.Formula.Inspection
import ExactFormula.Main
import ExactFormula.Proofs.Formula.Folding
import ExactFormula.Proofs.Formula.Ladder
import ExactFormula.Proofs.Formula.Interpreter
import ExactFormula.Proofs.Plan.Code
import ExactFormula.Proofs.Formula.ReadBy
import ExactFormula.Proofs.Plan.Planning
import ExactFormula.Proofs.Formula.Bare
import ExactFormula.Proofs.Cache.Recency
import ExactFormula.Proofs.Reading.Direct
import ExactFormula.Proofs.Cache.Soundness
import ExactFormula.Proofs.Reading.Running
import ExactFormula.Proofs.Reading.Tracking
import ExactFormula.Proofs.Reading.Sound
import ExactFormula.Proofs.Cache.Contents
import ExactFormula.Proofs.Reading.Lockstep
import ExactFormula.Proofs.Workspace.History
import ExactFormula.Proofs.Reading.Parentheses
import ExactFormula.Proofs.Workspace.Isolation
import ExactFormula.Proofs.Workspace.Compiling
import ExactFormula.Proofs.Json.Written
import ExactFormula.Proofs.Json.Reading
import ExactFormula.Proofs.Json.Number
import ExactFormula.Proofs.Decimal.Numeral
import ExactFormula.Proofs.Decimal.Digits
import ExactFormula.Proofs.Decimal.Text
import ExactFormula.Proofs.Text.Trimming
import ExactFormula.Proofs.Relaxed.Source
import ExactFormula.Proofs.Relaxed.Dates
import ExactFormula.Proofs.Relaxed.Bare
import ExactFormula.Proofs.Relaxed.Normalizing
import ExactFormula.Proofs.Relaxed.Reading
import ExactFormula.Proofs.Relaxed.Wrapping
import ExactFormula.Proofs.Relaxed.Placed
import ExactFormula.Proofs.Relaxed.Strict
import ExactFormula.Proofs.Relaxed.Printed
import ExactFormula.Proofs.Reading.Braces
import ExactFormula.Proofs.Workspace.Printing
import ExactFormula.Proofs.Formula.Depth
import ExactFormula.Proofs.Formula.Failures
import ExactFormula.Proofs.Formula.Dependence
import ExactFormula.Proofs.Formula.Within
import ExactFormula.Proofs.Formula.Stacks
import ExactFormula.Proofs.Plan.Heights
import ExactFormula.Proofs.Plan.Ranges
import ExactFormula.Proofs.Plan.Targets
import ExactFormula.Proofs.Reading.Pieces
import ExactFormula.Proofs.Reading.Built
import ExactFormula.Proofs.Reading.Lexed
import ExactFormula.Proofs.Reading.Nesting
import ExactFormula.Proofs.Reading.Delimiters
import ExactFormula.Proofs.Reading.Matched
import ExactFormula.Proofs.Reading.Partnered
import ExactFormula.Proofs.Workspace.Delimiters
import ExactFormula.Proofs.Workspace.Dependence
import ExactFormula.Proofs.Workspace.Supply
import ExactFormula.Proofs.Reading.Phrase
import ExactFormula.Proofs.Reading.Segments
import ExactFormula.Proofs.Reading.Tokens
import ExactFormula.Proofs.Reading.Complete
import ExactFormula.Proofs.Workspace.Phrases
import ExactFormula.Proofs.Reading.Tidy
import ExactFormula.Proofs.Relaxed.TidyValue
import ExactFormula.Proofs.Relaxed.Embedding
import ExactFormula.Proofs.Workspace.Embedding
import ExactFormula.Proofs.Decimal.Denoted
import ExactFormula.Proofs.Decimal.Canonical
import ExactFormula.Proofs.Reading.Failing
import ExactFormula.Proofs.Formula.Evaluating
import ExactFormula.Proofs.Workspace.Phases
import ExactFormula.Proofs.Reading.Quoted
import ExactFormula.Proofs.Relaxed.Blanks
import ExactFormula.Proofs.Relaxed.Requoting
import ExactFormula.Proofs.Relaxed.Comments
import ExactFormula.Proofs.Relaxed.Insertion
import ExactFormula.Proofs.Workspace.Commented
import ExactFormula.Proofs.Bytewise.Normalizing
import ExactFormula.Proofs.Decimal.Arithmetic
import ExactFormula.Proofs.Decimal.Spelling
import ExactFormula.Proofs.Decimal.Outcome
import ExactFormula.Proofs.Decimal.Power
import ExactFormula.Proofs.Decimal.Machine
import ExactFormula.Proofs.Decimal.Places
import ExactFormula.Proofs.Relaxed.Escaped
import ExactFormula.Proofs.Cache.Ranking
import ExactFormula.Proofs.Formula.Turns
import ExactFormula.Proofs.Formula.Deferred
import ExactFormula.Proofs.Plan.Depth
import ExactFormula.Proofs.Plan.Constants
import ExactFormula.Proofs.Workspace.Constants
import ExactFormula.Proofs.Cache.Books
import ExactFormula.Proofs.Cache.LookUps
import ExactFormula.Proofs.Reading.Recording
import ExactFormula.Proofs.Workspace.Accounting
import ExactFormula.Proofs.Workspace.Planned
import ExactFormula.Proofs.Reading.Numbers
import ExactFormula.Proofs.Reading.Arranging
import ExactFormula.Proofs.Workspace.Nesting
import ExactFormula.Proofs.Reading.Levels
import ExactFormula.Proofs.Decimal.Grammar
import ExactFormula.Proofs.Function.Aggregate
import ExactFormula.Proofs.Function.WholePart
import ExactFormula.Proofs.Decimal.Conversion
import ExactFormula.Proofs.Reading.Separators
import ExactFormula.Proofs.Formula.Modes
import ExactFormula.Proofs.Reading.Modes
import ExactFormula.Proofs.Reading.Yielding
import ExactFormula.Proofs.Workspace.Modes
