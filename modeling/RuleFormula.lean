import RuleFormula.Expr.Compare
import RuleFormula.Main
import RuleFormula.Proofs.Grammar.Phrase
import RuleFormula.Proofs.Grammar.Follow
import RuleFormula.Proofs.Grammar.Reading
import RuleFormula.Proofs.Grammar.Derivation
import RuleFormula.Proofs.Grammar.Language
import RuleFormula.Proofs.Grammar.Depth
import RuleFormula.Proofs.Decimal.Text
import RuleFormula.Proofs.Expr.Canonical
import RuleFormula.Proofs.Token.Layout
import RuleFormula.Proofs.Token.Places
import RuleFormula.Proofs.Grammar.Failure
import RuleFormula.Proofs.Grammar.Lookahead
import RuleFormula.Proofs.Grammar.Following
import RuleFormula.Proofs.Grammar.Stream
import RuleFormula.Proofs.Grammar.Message
import RuleFormula.Proofs.Grammar.Viable
import RuleFormula.Proofs.Grammar.Limit
import RuleFormula.Proofs.Places
import RuleFormula.Proofs.Token.Onward
import RuleFormula.Proofs.Expr.Order
import RuleFormula.Proofs.Expr.Context
import RuleFormula.Proofs.Expr.Equality
import RuleFormula.Proofs.Json.Decode
import RuleFormula.Proofs.Grammar.Introduced
import RuleFormula.Proofs.Positions
import RuleFormula.Proofs.Expr.Image
import RuleFormula.Proofs.Parser.Basic
import RuleFormula.Proofs.Parser.Agreement
import RuleFormula.Proofs.Parser.Session
import RuleFormula.Proofs.Grammar.Placeless
import RuleFormula.Proofs.Spacing
import RuleFormula.Proofs.Decimal.Value
import RuleFormula.Proofs.Decimal.Exact
import RuleFormula.Proofs.Decimal.Digits
import RuleFormula.Proofs.Grammar.Deepest
import RuleFormula.Proofs.Grammar.Respelled
import RuleFormula.Proofs.Grammar.Substitution
import RuleFormula.Proofs.Grammar.Call
import RuleFormula.Proofs.Token.Fault
import RuleFormula.Proofs.Token.Rejected
import RuleFormula.Proofs.Token.Quoted
import RuleFormula.Proofs.Numerals
import RuleFormula.Proofs.Report.Problem
import RuleFormula.Proofs.Report.Check
import RuleFormula.Proofs.Report.TokenTable
import RuleFormula.Proofs.Token.Escape
import RuleFormula.Proofs.Token.Trailing
import RuleFormula.Proofs.Command.Arguments
import RuleFormula.Proofs.Command.Input
