import RuleFormula.Expr.Operator
import RuleFormula.Token.Basic

set_option autoImplicit false

namespace RuleFormula

def Token.binaryOp? (t : Token) : Option BinaryOp :=
  match t.kind with
  | .plus => some .add
  | .minus => some .subtract
  | .star => some .multiply
  | .slash => some .divide
  | .caret => some .power
  | .percent => some .modulo
  | .equals => some .equal
  | .notEquals => some .notEqual
  | .less => some .lessThan
  | .lessEqual => some .lessEqual
  | .greater => some .greaterThan
  | .greaterEqual => some .greaterEqual
  | .and => some .and
  | .or => some .or
  | .ampersand => some .concat
  | .identifier =>
    match Keyword.ofText? t.text with
    | some .and => some .and
    | some .or => some .or
    | _ => none
  | _ => none

/-- Whether a token in front of `next` negates. In front of a parenthesis the word is the name of a
call, and in front of a point it starts a field path. -/
def Token.negates (t : Token) (next : Option Token) : Bool :=
  t.kind = .not ||
    t.keyword? = some .not && next.all fun n => n.kind ≠ .leftParen && n.kind ≠ .dot

namespace Grammar

inductive Tier where
  | or | and | not | comparison | concat | sum | product | power | sign
  deriving DecidableEq

def Tier.tighter : Tier → Tier
  | or => and
  | and => not
  | not => comparison
  | comparison => concat
  | concat => sum
  | sum => product
  | product => power
  | power => sign
  | sign => sign

end Grammar

def BinaryOp.tier : BinaryOp → Grammar.Tier
  | or => .or
  | and => .and
  | equal | notEqual | lessThan | lessEqual | greaterThan | greaterEqual => .comparison
  | concat => .concat
  | add | subtract => .sum
  | multiply | divide | modulo => .product
  | power => .power

def Grammar.Tier.operator? (tier : Grammar.Tier) (t : Token) : Option BinaryOp :=
  t.binaryOp?.filter fun op => op.tier = tier

end RuleFormula
