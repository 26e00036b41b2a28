set_option autoImplicit false

namespace RuleFormula

inductive BinaryOp where
  | add | subtract | multiply | divide | power | modulo
  | equal | notEqual | lessThan | lessEqual | greaterThan | greaterEqual
  | and | or
  | concat
  deriving DecidableEq

namespace BinaryOp

def all : List BinaryOp :=
  [add, subtract, multiply, divide, power, modulo, equal, notEqual, lessThan, lessEqual,
    greaterThan, greaterEqual, and, or, concat]

def symbol : BinaryOp → String
  | add => "+"
  | subtract => "-"
  | multiply => "*"
  | divide => "/"
  | power => "^"
  | modulo => "%"
  | equal => "="
  | notEqual => "!="
  | lessThan => "<"
  | lessEqual => "<="
  | greaterThan => ">"
  | greaterEqual => ">="
  | and => "AND"
  | or => "OR"
  | concat => "&"

def isArithmetic : BinaryOp → Bool
  | add | subtract | multiply | divide | power | modulo => true
  | _ => false

def isComparison : BinaryOp → Bool
  | equal | notEqual | lessThan | lessEqual | greaterThan | greaterEqual => true
  | _ => false

def isLogical : BinaryOp → Bool
  | and | or => true
  | _ => false

end BinaryOp

inductive UnaryOp where
  | negate | not
  deriving DecidableEq

def UnaryOp.symbol : UnaryOp → String
  | negate => "-"
  | not => "NOT"

end RuleFormula
