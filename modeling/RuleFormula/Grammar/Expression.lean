import RuleFormula.Grammar.Outcome
import RuleFormula.Grammar.Tier
import RuleFormula.Token.Quoted

/-!
The grammar of expressions, loosest operators first:

    or          = and (OR and)*
    and         = not (AND not)*
    not         = NOT not | comparison
    comparison  = concat (("=" | "!=" | "<" | "<=" | ">" | ">=") concat)*
    concat      = sum ("&" sum)*
    sum         = product (("+" | "-") product)*
    product     = power (("*" | "/" | "%") power)*
    power       = sign ("^" power)?
    sign        = ("-" | "+") sign | operand
    operand     = literal | name "(" (or ("," or)*)? ")" | "$"? name ("." name)* | "(" or ")"

Every parenthesis, argument, leading operator, exponent and fold of a chain goes one level further
in, and the number of levels is limited. A reader gets the readers one level further in as an
argument, none if no level is left, so that the whole grammar recurs on the number of levels.
-/
set_option autoImplicit false

namespace RuleFormula.Grammar

/-- The readers one level further in: `read` starts on a tier, `extend` goes on with a chain. -/
structure Inner where
  read : Tier → Reader Expr
  extend : Tier → Expr → Reader Expr

@[inline] def enter (inner : Option Inner) (next : Inner → Reader Expr) : Reader Expr := fun ts =>
  match inner with
  | none => .error .tooDeep ts
  | some i => next i ts

def expression (inner : Option Inner) : Reader Expr := enter inner fun i => i.read .or

def segments : Reader (List String)
  | [] => .ok [] []
  | t :: ts =>
    if t.kind = .dot then
      match ts with
      | [] => .error (.expected .fieldName) []
      | name :: ts =>
        if name.kind = .identifier then (segments ts).map (name.text :: ·)
        else .error (.expected .fieldName) (name :: ts)
    else .ok [] (t :: ts)

def path (first : String) (position : Nat) : Reader Expr := fun ts =>
  (segments ts).map fun names => .field (first :: names) position

def leaf (t : Token) (value : Literal) : Reader Expr := .ok (.literal value t.location.offset)

/-- An identifier that stands alone: a literal word or a path of one name. The words of operators
are no operands. -/
def word (t : Token) : Reader Expr :=
  match t.keyword? with
  | some .true => leaf t (.boolean true)
  | some .false => leaf t (.boolean false)
  | some .null => leaf t .null
  | some .and | some .or | some .not => .error (.keyword t)
  | none => .ok (.field [t.text] t.location.offset)

/-- One argument or more, and the closing parenthesis. Every round takes a token, so the first
number may be anything above the number of tokens. -/
def arguments (inner : Option Inner) (function : String) : Nat → Reader (List Expr)
  | 0, ts => .error (.expected (.argumentEnd function)) ts
  | fuel + 1, ts =>
    (expression inner ts).andThen fun e rest =>
      match rest with
      | [] => .error (.expected (.argumentEnd function)) []
      | t :: after =>
        if t.kind = .comma then (arguments inner function fuel after).map (e :: ·)
        else if t.kind = .rightParen then .ok [e] after
        else .error (.expected (.argumentEnd function)) (t :: after)

def argumentList (inner : Option Inner) (function : String) : Reader (List Expr)
  | [] => arguments inner function 1 []
  | t :: ts =>
    if t.kind = .rightParen then .ok [] ts
    else arguments inner function ((t :: ts).length + 1) (t :: ts)

def call (inner : Option Inner) (name : Token) : Reader Expr := fun ts =>
  (argumentList inner name.text ts).map fun args => .call name.text args name.location.offset

/-- What follows an identifier tells what it is, before its spelling does. -/
def named (inner : Option Inner) (name : Token) : Reader Expr
  | [] => word name []
  | t :: ts =>
    if t.kind = .leftParen then call inner name ts
    else if t.kind = .dot then path name.text name.location.offset (t :: ts)
    else word name (t :: ts)

def operand (inner : Option Inner) : Reader Expr
  | [] => .error (.expected .expression) []
  | t :: ts =>
    match t.kind with
    | .number =>
      match Decimal.read t.text with
      | .ok d => leaf t (.number d) ts
      | .error e => .error (.invalidNumber t.text e) (t :: ts)
    | .string => leaf t (.string (Quoted.decode t.text)) ts
    | .boolean =>
      match Keyword.ofText? t.text with
      | some .true => leaf t (.boolean true) ts
      | some .false => leaf t (.boolean false) ts
      | _ => .error (.invalidBoolean t.text) (t :: ts)
    | .null => leaf t .null ts
    | .identifier => named inner t ts
    | .fieldMarker =>
      (expect .identifier .globalName ts).andThen fun name =>
        path ("$" ++ name.text) t.location.offset
    | .leftParen =>
      (expression inner ts).andThen fun e rest =>
        (expect .rightParen (.closing t.location) rest).map fun _ => e
    | _ => .error (.expected .expression) (t :: ts)

/-- A leading plus leaves no node behind. -/
def sign (inner : Option Inner) : Reader Expr
  | [] => operand inner []
  | t :: ts =>
    if t.kind = .minus then
      (enter inner (fun i => i.read .sign) ts).map fun e => .unary .negate e t.location.offset
    else if t.kind = .plus then enter inner (fun i => i.read .sign) ts
    else operand inner (t :: ts)

def power (inner : Option Inner) : Reader Expr := fun ts =>
  (sign inner ts).andThen fun base rest =>
    match rest with
    | [] => .ok base []
    | t :: after =>
      match Tier.power.operator? t with
      | none => .ok base (t :: after)
      | some op =>
        (enter inner (fun i => i.read .power) after).map fun exponent =>
          .binary op base exponent t.location.offset

/-- Goes on behind the left side of a chain. Each operator takes a level, which lasts until the
chain ends. -/
def extend (inner : Option Inner) (tier : Tier) (left : Expr) : Reader Expr
  | [] => .ok left []
  | t :: ts =>
    match tier.operator? t with
    | none => .ok left (t :: ts)
    | some op =>
      match inner with
      | none => .error .tooDeep (t :: ts)
      | some i =>
        (i.read tier.tighter ts).andThen fun right =>
          i.extend tier (.binary op left right t.location.offset)

def chain (inner : Option Inner) (tier : Tier) (first : Reader Expr) : Reader Expr := fun ts =>
  (first ts).andThen (extend inner tier)

def product (inner : Option Inner) : Reader Expr := chain inner .product (power inner)

def sum (inner : Option Inner) : Reader Expr := chain inner .sum (product inner)

def concat (inner : Option Inner) : Reader Expr := chain inner .concat (sum inner)

def comparison (inner : Option Inner) : Reader Expr := chain inner .comparison (concat inner)

def negation (inner : Option Inner) : Reader Expr
  | [] => comparison inner []
  | t :: ts =>
    if t.negates ts.head? then
      (enter inner (fun i => i.read .not) ts).map fun e => .unary .not e t.location.offset
    else comparison inner (t :: ts)

def conjunction (inner : Option Inner) : Reader Expr := chain inner .and (negation inner)

def disjunction (inner : Option Inner) : Reader Expr := chain inner .or (conjunction inner)

def Tier.reader (inner : Option Inner) : Tier → Reader Expr
  | or => disjunction inner
  | and => conjunction inner
  | not => negation inner
  | comparison => Grammar.comparison inner
  | concat => Grammar.concat inner
  | sum => Grammar.sum inner
  | product => Grammar.product inner
  | power => Grammar.power inner
  | sign => Grammar.sign inner

def Inner.within : Nat → Option Inner
  | 0 => none
  | levels + 1 =>
    some ⟨fun tier ts => tier.reader (within levels) ts,
      fun tier left ts => Grammar.extend (within levels) tier left ts⟩

def complete (inner : Option Inner) : Reader Expr := fun ts =>
  (expression inner ts).andThen fun e rest =>
    match rest with
    | [] => .ok e []
    | t :: after => .error (.trailing t) (t :: after)

end RuleFormula.Grammar
