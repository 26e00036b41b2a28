import RuleFormula.Text.Lines
import RuleFormula.Token.Basic

set_option autoImplicit false

namespace RuleFormula.TokenTable

def padRight (width : Nat) (s : String) : String :=
  s ++ Text.blanks (width - s.length)

def row (t : Token) : String :=
  padRight 8 (t.location.line.repr ++ ":" ++ t.location.column.repr) ++ " " ++
    padRight 22 t.kind.name ++ " " ++ t.text ++ "\n"

def render (ts : List Token) : String := String.join (ts.map row)

end RuleFormula.TokenTable
