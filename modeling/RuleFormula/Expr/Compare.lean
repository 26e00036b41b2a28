import RuleFormula.Expr.Basic

/-! Equality of trees, with and without the places their nodes come from. Numbers are compared by
value, so `1.0` equals `1.00`. -/
set_option autoImplicit false

namespace RuleFormula

def Literal.same : Literal → Literal → Bool
  | .number a, .number b => a.sameValue b
  | .string a, .string b => a == b
  | .boolean a, .boolean b => a == b
  | .null, .null => true
  | _, _ => false

namespace Expr

mutual

def same : Expr → Expr → Bool
  | binary op l r p, binary op' l' r' p' => op == op' && same l l' && same r r' && p == p'
  | unary op e p, unary op' e' p' => op == op' && same e e' && p == p'
  | call f args p, call f' args' p' => f == f' && sameList args args' && p == p'
  | literal v p, literal v' p' => v.same v' && p == p'
  | field path p, field path' p' => path == path' && p == p'
  | _, _ => false

def sameList : List Expr → List Expr → Bool
  | [], [] => true
  | e :: es, e' :: es' => same e e' && sameList es es'
  | _, _ => false

end

mutual

def sameShape : Expr → Expr → Bool
  | binary op l r _, binary op' l' r' _ => op == op' && sameShape l l' && sameShape r r'
  | unary op e _, unary op' e' _ => op == op' && sameShape e e'
  | call f args _, call f' args' _ => f == f' && sameShapes args args'
  | literal v _, literal v' _ => v.same v'
  | field path _, field path' _ => path == path'
  | _, _ => false

def sameShapes : List Expr → List Expr → Bool
  | [], [] => true
  | e :: es, e' :: es' => sameShape e e' && sameShapes es es'
  | _, _ => false

end

end Expr

end RuleFormula
