import RuleFormula.Grammar.Stream
import RuleFormula.Token.Cursor

set_option autoImplicit false

namespace RuleFormula

def defaultLimit : Nat := 128

inductive FormulaError where
  | lex (error : LexError)
  | parse (error : ParseError)
  deriving DecidableEq

def parseFormula (limit : Nat) (source : String) : Except FormulaError Expr := do
  let ts ← (tokenize source).mapError .lex
  (parseTokens limit ts).mapError .parse

end RuleFormula
