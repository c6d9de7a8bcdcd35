import Reckon.Text.Blank
import Reckon.Text.Line
import Reckon.Decimal.Nearest
import Reckon.Decimal.Numeral
import Reckon.Decimal.Shortest
import Reckon.Decimal.Text
import Reckon.Token.Basic
import Reckon.Token.Cursor
import Reckon.Token.Scanner
import Reckon.Expr.Basic
import Reckon.Expr.Bracketed
import Reckon.Expr.Value
import Reckon.Policy
import Reckon.Reader.Basic
import Reckon.Reader.Descent
import Reckon.Calculation
import Reckon.SelfCheck
import Reckon.CommandLine.Options
import Reckon.CommandLine.Batch
import Reckon.CommandLine.Plan
import Reckon.Main
import Reckon.Proofs.Token.Reading
import Reckon.Proofs.Token.Stream
import Reckon.Proofs.Grammar.Derivation
import Reckon.Proofs.Grammar.Beginning
import Reckon.Proofs.Grammar.Scan
import Reckon.Proofs.Reader.Taking
import Reckon.Proofs.Reader.Replies
import Reckon.Proofs.Reader.Outcomes
import Reckon.Proofs.Reader.Recognition
import Reckon.Proofs.Reader.Answers
import Reckon.Proofs.Expression.Parsing
import Reckon.Proofs.Expression.Acceptance
import Reckon.Proofs.Token.Spelling
import Reckon.Proofs.Grammar.Spelling
import Reckon.Proofs.Expression.Printing
import Reckon.Proofs.Expression.Height
import Reckon.Proofs.Expression.FirstFault
import Reckon.Proofs.Expression.Verdict
import Reckon.Proofs.Expression.Limit
import Reckon.Proofs.Expression.Longest
import Reckon.Proofs.CommandLine.Lines
import Reckon.Proofs.CommandLine.Verbosity
import Reckon.Proofs.Expression.Remainder
import Reckon.Proofs.Token.Shift
import Reckon.Proofs.Reader.Runs
import Reckon.Proofs.Expression.LazyTokens
import Reckon.Proofs.Expression.Reuse
import Reckon.Proofs.Expression.Progress
import Reckon.Proofs.Double.Pattern
import Reckon.Proofs.Expression.Evaluable
import Reckon.Proofs.Token.Cut
import Reckon.Proofs.Token.Layout
import Reckon.Proofs.Token.Requests
import Reckon.Proofs.CommandLine.KeepGoing
import Reckon.Proofs.Expression.Machine
import Reckon.Proofs.Text.Lines
import Reckon.Proofs.CommandLine.Sources
import Reckon.Proofs.Decimal.Rounding
import Reckon.Proofs.Double.Value
import Reckon.Proofs.Double.Exact
import Reckon.Proofs.Double.Integer
import Reckon.Proofs.Expression.Formula
import Reckon.Proofs.Expression.Exact
import Reckon.Proofs.Decimal.Reading
import Reckon.Proofs.Decimal.Whole
import Reckon.Proofs.Double.Shortest
import Reckon.Proofs.Double.Sign
import Reckon.Proofs.Expression.Feedback
import Reckon.Proofs.Decimal.Plain
import Reckon.Proofs.Double.Interval
import Reckon.Proofs.Double.Text
import Reckon.Proofs.Expression.Bracketed
import Reckon.Proofs.Double.Alike
import Reckon.Proofs.Expression.Agreement
import Reckon.Proofs.Expression.Congruence
import Reckon.Proofs.Token.Concatenation
import Reckon.Proofs.Expression.Spacing
import Reckon.Proofs.Reader.Moves
import Reckon.Proofs.Reader.Depth
import Reckon.Proofs.Reader.Work
import Reckon.Proofs.Double.Nearest
import Reckon.Proofs.Token.Literals
