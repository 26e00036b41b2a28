import RuleFormula.Decimal.Basic
import RuleFormula.Expr.Operator

set_option autoImplicit false

namespace RuleFormula

inductive Literal where
  | number (value : Decimal)
  | string (value : String)
  | boolean (value : Bool)
  | null
  deriving DecidableEq

/-- Every node has the offset of the token that introduced it: the operator, the called name, the
literal, the first token of a field path. -/
inductive Expr where
  | binary (op : BinaryOp) (left right : Expr) (position : Nat)
  | unary (op : UnaryOp) (operand : Expr) (position : Nat)
  | call (name : String) (args : List Expr) (position : Nat)
  | literal (value : Literal) (position : Nat)
  | field (path : List String) (position : Nat)

namespace Expr

instance : Inhabited Expr := ⟨literal .null 0⟩

def position : Expr → Nat
  | binary _ _ _ p | unary _ _ p | call _ _ p | literal _ p | field _ p => p

def kindName : Expr → String
  | binary .. => "binary"
  | unary .. => "unary"
  | call .. => "call"
  | literal .. => "literal"
  | field .. => "field"

mutual

def depth : Expr → Nat
  | binary _ left right _ => 1 + max left.depth right.depth
  | unary _ operand _ => 1 + operand.depth
  | call _ args _ => 1 + depthList args
  | literal .. | field .. => 1

def depthList : List Expr → Nat
  | [] => 0
  | e :: es => max e.depth (depthList es)

end

mutual

/-- All nodes, each before those below it, left to right. -/
def nodes : Expr → List Expr
  | binary op left right p => binary op left right p :: (left.nodes ++ right.nodes)
  | unary op operand p => unary op operand p :: operand.nodes
  | call name args p => call name args p :: nodesList args
  | literal value p => [literal value p]
  | field path p => [field path p]

def nodesList : List Expr → List Expr
  | [] => []
  | e :: es => e.nodes ++ nodesList es

end

def fieldReferences (e : Expr) : List (List String) :=
  e.nodes.filterMap fun
    | field path _ => some path
    | _ => none

def functionNames (e : Expr) : List String :=
  e.nodes.filterMap fun
    | call name _ _ => some name
    | _ => none

end Expr

end RuleFormula
