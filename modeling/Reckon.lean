import Reckon.Command.Basic
import Reckon.Main
import Reckon.Number.Layout
import Reckon.Proofs.Diagnostic.Lines
import Reckon.Proofs.Diagnostic.Render
import Reckon.Proofs.Expr.Blame
import Reckon.Proofs.Expr.Context
import Reckon.Proofs.Expr.Endless
import Reckon.Proofs.Expr.Excerpt
import Reckon.Proofs.Expr.Faults
import Reckon.Proofs.Expr.Height
import Reckon.Proofs.Expr.Ladder
import Reckon.Proofs.Expr.Limits
import Reckon.Proofs.Expr.Literal
import Reckon.Proofs.Expr.Parenthesized
import Reckon.Proofs.Expr.Printer
import Reckon.Proofs.Expr.Reading
import Reckon.Proofs.Expr.Recovery
import Reckon.Proofs.Expr.Relayout
import Reckon.Proofs.Expr.Relocation
import Reckon.Proofs.Expr.StackMachine
import Reckon.Proofs.Expr.Steps
import Reckon.Proofs.Expr.Unplaced
import Reckon.Proofs.Expr.ValueKinds
import Reckon.Proofs.Expr.Yield
import Reckon.Proofs.Number.Digits
import Reckon.Proofs.Number.Display
import Reckon.Proofs.Number.Distinct
import Reckon.Proofs.Number.Fewest
import Reckon.Proofs.Number.Nearest
import Reckon.Proofs.Number.Order
import Reckon.Proofs.Number.Places
import Reckon.Proofs.Number.Positional
import Reckon.Proofs.Number.Shortest
import Reckon.Proofs.Number.Sign
import Reckon.Proofs.Number.Value
import Reckon.Proofs.Session.Execute
import Reckon.Proofs.Session.Locations
import Reckon.Proofs.Session.Options
import Reckon.Proofs.Session.Outcomes
import Reckon.Proofs.Session.ReadBack
import Reckon.Proofs.Session.Reports
import Reckon.Proofs.Session.Requests
import Reckon.Proofs.Session.Transcript
import Reckon.Proofs.Source.Files
import Reckon.Proofs.Source.History
import Reckon.Proofs.Source.LineTable
import Reckon.Proofs.Source.Ranges
import Reckon.Proofs.Token.Coverage
import Reckon.Proofs.Token.Cut
import Reckon.Proofs.Token.First
import Reckon.Proofs.Token.Incremental
import Reckon.Proofs.Token.Lexeme
import Reckon.Proofs.Token.Lines
import Reckon.Proofs.Token.LongestMatch
import Reckon.Proofs.Token.Parens
import Reckon.Proofs.Token.Recovery
import Reckon.Proofs.Token.Relayout
import Reckon.Proofs.Token.Separation
import Reckon.Proofs.Token.Spans
import Reckon.Proofs.Token.Window
import Reckon.Token.Kind
