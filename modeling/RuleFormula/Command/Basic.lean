import RuleFormula.Json.Encode
import RuleFormula.Report.Check
import RuleFormula.Report.Problem
import RuleFormula.Report.TokenTable

set_option autoImplicit false

namespace RuleFormula

inductive CommandError where
  | formula (source : String) (problem : Problem)
  | noInput
  | invalidText
  deriving DecidableEq

namespace CommandError

def message : CommandError → String
  | formula source problem => problem.render source
  | noInput => "No formula provided. Pass it as an argument or pipe it to stdin."
  | invalidText => "IO error: stream did not contain valid UTF-8"

def problem? : CommandError → Option Problem
  | formula _ problem => some problem
  | _ => none

end CommandError

namespace Command

def tokens (source : String) : Except CommandError (List Token) :=
  (tokenize source).mapError fun e => .formula source e.problem

def tree (limit : Nat) (source : String) : Except CommandError Expr :=
  (parseFormula limit source).mapError fun e => .formula source e.problem

def jsonText (pretty : Bool) (j : Json) : String := if pretty then j.pretty else j.compact

def tokenTable (source : String) : Except CommandError String :=
  (tokens source).map TokenTable.render

def tokenJson (pretty : Bool) (source : String) : Except CommandError String :=
  (tokens source).map fun ts => jsonText pretty (.array (ts.map Token.toJson))

def treeJson (pretty : Bool) (limit : Nat) (source : String) : Except CommandError String :=
  (tree limit source).map fun e => jsonText pretty e.toJson

def check (limit : Nat) (source : String) : Except CommandError CheckReport :=
  (tree limit source).map CheckReport.ofExpr

end Command

end RuleFormula
