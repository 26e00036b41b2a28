import RuleFormula.Expr.Basic
import RuleFormula.Token.Quoted

/-! Canonical formulas. Every operation stands in parentheses of its own, so that a canonical
formula reads back without any precedence. Logical negation is written with the symbol, since the
word in front of a parenthesis would be a call. -/
set_option autoImplicit false

namespace RuleFormula

def Literal.render : Literal → String
  | .number d => d.toText
  | .string s => Quoted.encode s
  | .boolean true => "TRUE"
  | .boolean false => "FALSE"
  | .null => "NULL"

namespace Expr

def renderPath (path : List String) : String := ".".intercalate path

mutual

def render : Expr → String
  | binary op left right _ =>
    "(" ++ render left ++ " " ++ op.symbol ++ " " ++ render right ++ ")"
  | unary .negate operand _ => "(-" ++ render operand ++ ")"
  | unary .not operand _ => "(!" ++ render operand ++ ")"
  | call name args _ => name ++ "(" ++ renderArgs args ++ ")"
  | literal value _ => value.render
  | field path _ => renderPath path

def renderArgs : List Expr → String
  | [] => ""
  | [e] => render e
  | e :: es => render e ++ ", " ++ renderArgs es

end

end Expr

end RuleFormula
