import ComplexExpr.Builtin
import ComplexExpr.Calculator
import ComplexExpr.Command.Arguments
import ComplexExpr.Command.Basic
import ComplexExpr.Command.Execute
import ComplexExpr.Command.Interaction
import ComplexExpr.Command.Variables
import ComplexExpr.Decimal.Basic
import ComplexExpr.Decimal.Binary
import ComplexExpr.Decimal.Layout
import ComplexExpr.Decimal.Numeral
import ComplexExpr.Decimal.Shortest
import ComplexExpr.Decimal.Typed
import ComplexExpr.Defect
import ComplexExpr.Expr.Basic
import ComplexExpr.Expr.Equivalence
import ComplexExpr.Expr.Evaluate
import ComplexExpr.Expr.Parser
import ComplexExpr.Failure
import ComplexExpr.Given
import ComplexExpr.Json.Basic
import ComplexExpr.Json.Display
import ComplexExpr.Json.Reader
import ComplexExpr.Json.Writer
import ComplexExpr.Main
import ComplexExpr.NameSet
import ComplexExpr.Parsed
import ComplexExpr.Proofs.Binary.Arithmetic
import ComplexExpr.Proofs.Binary.ErrorFree
import ComplexExpr.Proofs.Binary.Nearest
import ComplexExpr.Proofs.Binary.Order
import ComplexExpr.Proofs.Binary.Parts
import ComplexExpr.Proofs.Binary.ReadBack
import ComplexExpr.Proofs.Binary.Rounding
import ComplexExpr.Proofs.Binary.Scientific
import ComplexExpr.Proofs.Binary.Sum
import ComplexExpr.Proofs.Binary.Unpacked
import ComplexExpr.Proofs.Binary.Unsigned
import ComplexExpr.Proofs.Binary.Vanishing
import ComplexExpr.Proofs.Calculator.Faults
import ComplexExpr.Proofs.Calculator.Literals
import ComplexExpr.Proofs.Calculator.Priority
import ComplexExpr.Proofs.Command.Depth
import ComplexExpr.Proofs.Command.Endings
import ComplexExpr.Proofs.Command.Environment
import ComplexExpr.Proofs.Command.Options
import ComplexExpr.Proofs.Command.Pairs
import ComplexExpr.Proofs.Command.Session
import ComplexExpr.Proofs.Decimal.Layout
import ComplexExpr.Proofs.Decimal.Numeral
import ComplexExpr.Proofs.Decimal.Power
import ComplexExpr.Proofs.Decimal.Shortest
import ComplexExpr.Proofs.Decimal.Typed
import ComplexExpr.Proofs.Expr.Chains
import ComplexExpr.Proofs.Expr.Dependence
import ComplexExpr.Proofs.Expr.Derivation
import ComplexExpr.Proofs.Expr.Descent
import ComplexExpr.Proofs.Expr.Divisors
import ComplexExpr.Proofs.Expr.EarliestError
import ComplexExpr.Proofs.Expr.Following
import ComplexExpr.Proofs.Expr.Frames
import ComplexExpr.Proofs.Expr.InfixForm
import ComplexExpr.Proofs.Expr.Joining
import ComplexExpr.Proofs.Expr.Lookahead
import ComplexExpr.Proofs.Expr.Names
import ComplexExpr.Proofs.Expr.Nesting
import ComplexExpr.Proofs.Expr.Phrase
import ComplexExpr.Proofs.Expr.PrefixForm
import ComplexExpr.Proofs.Expr.Progress
import ComplexExpr.Proofs.Expr.Raising
import ComplexExpr.Proofs.Expr.Reading
import ComplexExpr.Proofs.Expr.Replay
import ComplexExpr.Proofs.Expr.Sampling
import ComplexExpr.Proofs.Expr.Spread
import ComplexExpr.Proofs.Expr.Substitution
import ComplexExpr.Proofs.Expr.Taken
import ComplexExpr.Proofs.Expr.Trials
import ComplexExpr.Proofs.Expr.Unambiguity
import ComplexExpr.Proofs.Expr.Verdicts
import ComplexExpr.Proofs.Json.Ascii
import ComplexExpr.Proofs.Json.Number
import ComplexExpr.Proofs.Json.Readable
import ComplexExpr.Proofs.Json.RoundTrip
import ComplexExpr.Proofs.Json.Text
import ComplexExpr.Proofs.RequiredFiles
import ComplexExpr.Proofs.Results
import ComplexExpr.Proofs.Settings.Accepted
import ComplexExpr.Proofs.Settings.Loading
import ComplexExpr.Proofs.Settings.Saved
import ComplexExpr.Proofs.Settings.Update
import ComplexExpr.Proofs.Table
import ComplexExpr.Proofs.Text.Run
import ComplexExpr.Proofs.Token.Lexeme
import ComplexExpr.Proofs.Token.Merging
import ComplexExpr.Proofs.Token.Scan
import ComplexExpr.Proofs.Token.Shape
import ComplexExpr.Proofs.Token.Spacing
import ComplexExpr.Proofs.Value.Accounts
import ComplexExpr.Proofs.Value.Closeness
import ComplexExpr.Proofs.Value.Length
import ComplexExpr.Proofs.Value.Literal
import ComplexExpr.Proofs.Value.Pieces
import ComplexExpr.Proofs.Value.PlainNumerals
import ComplexExpr.Proofs.Value.Raising
import ComplexExpr.Proofs.Value.Root
import ComplexExpr.Proofs.Value.RoundTrip
import ComplexExpr.Proofs.Value.Split
import ComplexExpr.Proofs.Value.Written
import ComplexExpr.Random.Source
import ComplexExpr.Random.Twister
import ComplexExpr.RequiredFiles
import ComplexExpr.Settings.Basic
import ComplexExpr.Settings.Key
import ComplexExpr.Settings.Place
import ComplexExpr.Table
import ComplexExpr.Text.Blank
import ComplexExpr.Text.CodePoint
import ComplexExpr.Text.DecimalDigit
import ComplexExpr.Text.Printable
import ComplexExpr.Token.Basic
import ComplexExpr.Token.Cursor
import ComplexExpr.Token.Lexer
import ComplexExpr.Value.Basic
import ComplexExpr.Value.Literal
import ComplexExpr.Value.Magnitude
