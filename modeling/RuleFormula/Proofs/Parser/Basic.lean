import RuleFormula.Grammar.Stream

/-! A parser that is kept from one reading to the next. It has all tokens, the index of the next one
and a count of the levels that are open, and each reading has to leave the count as it found it,
also where it fails. Nothing here bounds the recursion but the count: that readings come to an end,
and that the index stays on the tokens, is to be shown. -/
set_option autoImplicit false

namespace RuleFormula

structure Parser where
  tokens : List Token
  index : Nat
  depth : Nat
  limit : Nat
  deriving DecidableEq

namespace Parser

def ofTokens (limit : Nat) (ts : List Token) : Except ParseError Parser :=
  (TokenStream.ofTokens ts).map fun _ => ⟨ts, 0, 0, limit⟩

/-- A step of a parser that may fail with an error, and leaves a parser in either case. There is no
result at all if the step never ends, if it looks for a token behind the last one or if it closes a
level that is not open. -/
abbrev Action (α : Type) := ExceptT ParseError (StateT Parser Option) α

namespace Action

def current : Action Token := fun p => p.tokens[p.index]?.map fun t => (.ok t, p)

def peek : Action (Option Token) := fun p => some (.ok p.tokens[p.index + 1]?, p)

/-- Takes the current token. The last one is never left behind. -/
def advance : Action Token := fun p => p.tokens[p.index]?.map fun t =>
  (.ok t, if p.index + 1 < p.tokens.length then { p with index := p.index + 1 } else p)

def fail {α : Type} (cause : Token → ParseError.Cause) : Action α := do
  let t ← current
  throw ⟨cause t, some t.location⟩

def unexpected {α : Type} (wanted : Expectation) : Action α :=
  fail fun t => .unexpected wanted (if t.kind = .endOfInput then none else some t)

def deepen : Action Unit := do
  let p ← get
  if p.limit ≤ p.depth then fail fun _ => .tooDeep p.limit
  else set { p with depth := p.depth + 1 }

/-- Closes a level behind a step, whatever the step found. -/
def close {α : Type} (x : Except ParseError α × Parser) : Option (Except ParseError α × Parser) :=
  match x.2.depth with
  | 0 => none
  | depth + 1 => some (x.1, { x.2 with depth })

def expect (kind : Token.Kind) (wanted : Expectation) : Action Token := do
  let t ← current
  if t.kind = kind then advance else unexpected wanted

-- From here on a call that closes a recursion is put in place by `apply`. A fixpoint stores a call
-- that is written as a term together with its place in the file, and would change with every line
-- above it.

def names (path : List String) : Action (List String) := do
  let t ← current
  if t.kind = .dot then
    let _ ← advance
    let name ← expect .identifier .fieldName
    (by apply names; exact path ++ [name.text])
  else return path
partial_fixpoint

def path (first : String) (position : Nat) : Action Expr := do
  let path ← names [first]
  return .field path position

def leaf (t : Token) (value : Literal) : Action Expr := do
  let _ ← advance
  return .literal value t.location.offset

def word (t : Token) : Action Expr :=
  match t.keyword? with
  | some .true => return .literal (.boolean true) t.location.offset
  | some .false => return .literal (.boolean false) t.location.offset
  | some .null => return .literal .null t.location.offset
  | some .and | some .or | some .not => throw ⟨.keyword t.text, some t.location⟩
  | none => return .field [t.text] t.location.offset

mutual

def nested (tier : Grammar.Tier) : Action Expr := do
  deepen
  fun p => (by apply read; exact tier : Action Expr) p >>= close
partial_fixpoint

def arguments (function : String) (args : List Expr) : Action (List Expr) := do
  let e : Expr ← (by apply nested; exact .or)
  let t ← current
  if t.kind = .comma then
    let _ ← advance
    (by apply arguments; exact function; exact args ++ [e])
  else if t.kind = .rightParen then
    let _ ← advance
    return args ++ [e]
  else unexpected (.argumentEnd function)
partial_fixpoint

def argumentList (function : String) : Action (List Expr) := do
  let t ← current
  if t.kind = .rightParen then
    let _ ← advance
    return []
  else (by apply arguments; exact function; exact [])
partial_fixpoint

def named : Action Expr := do
  let next ← peek
  let t ← advance
  match next.map Token.kind with
  | some .leftParen =>
    let _ ← advance
    let args : List Expr ← (by apply argumentList; exact t.text)
    return .call t.text args t.location.offset
  | some .dot => path t.text t.location.offset
  | _ => word t
partial_fixpoint

def operand : Action Expr := do
  let t ← current
  match t.kind with
  | .number =>
    match Decimal.read t.text with
    | .ok d => leaf t (.number d)
    | .error e => fail fun _ => .invalidNumber t.text e
  | .string => leaf t (.string (Quoted.decode t.text))
  | .boolean =>
    match Keyword.ofText? t.text with
    | some .true => leaf t (.boolean true)
    | some .false => leaf t (.boolean false)
    | _ => fail fun _ => .invalidBoolean t.text
  | .null => leaf t .null
  | .identifier => (by apply named)
  | .fieldMarker =>
    let _ ← advance
    let name ← expect .identifier .globalName
    path ("$" ++ name.text) t.location.offset
  | .leftParen =>
    let _ ← advance
    let e : Expr ← (by apply nested; exact .or)
    let _ ← expect .rightParen (.closing t.location)
    return e
  | _ => unexpected .expression
partial_fixpoint

def sign : Action Expr := do
  let t ← current
  if t.kind = .minus then
    let _ ← advance
    let e : Expr ← (by apply nested; exact .sign)
    return .unary .negate e t.location.offset
  else if t.kind = .plus then
    let _ ← advance
    (by apply nested; exact .sign)
  else (by apply operand)
partial_fixpoint

def power : Action Expr := do
  let base : Expr ← (by apply sign)
  let t ← current
  match Grammar.Tier.power.operator? t with
  | none => return base
  | some op =>
    let _ ← advance
    let exponent : Expr ← (by apply nested; exact .power)
    return .binary op base exponent t.location.offset
partial_fixpoint

/-- Goes on with a chain. The level that each operator opens stays open here. -/
def folds (tier : Grammar.Tier) (left : Expr) : Action Expr := do
  let t ← current
  match tier.operator? t with
  | none => return left
  | some op =>
    deepen
    let _ ← advance
    let right : Expr ← (by apply read; exact tier.tighter)
    (by apply folds; exact tier; exact .binary op left right t.location.offset)
partial_fixpoint

def links (tier : Grammar.Tier) : Action Expr := do
  let first : Expr ← (by apply read; exact tier.tighter)
  (by apply folds; exact tier; exact first)
partial_fixpoint

/-- A whole chain. Behind it, all the levels that it opened are closed. -/
def chain (tier : Grammar.Tier) : Action Expr := fun p => do
  let (result, q) ← (by apply links; exact tier : Action Expr) p
  return (result, { q with depth := p.depth })
partial_fixpoint

def negation : Action Expr := do
  let t ← current
  let next ← peek
  if t.negates next then
    let _ ← advance
    let e : Expr ← (by apply nested; exact .not)
    return .unary .not e t.location.offset
  else (by apply read; exact .comparison)
partial_fixpoint

def read : Grammar.Tier → Action Expr
  | .not => (by apply negation)
  | .power => (by apply power)
  | .sign => (by apply sign)
  | tier => (by apply chain; exact tier)
partial_fixpoint

end

def expression : Action Expr := nested .or

def formula : Action Expr := do
  let e ← expression
  let t ← current
  if t.kind = .endOfInput then return e else throw ⟨.trailing t, some t.location⟩

end Action

inductive Request where
  | formula
  | expression
  deriving DecidableEq

def Request.action : Request → Action Expr
  | formula => Action.formula
  | expression => Action.expression

def answer (p : Parser) (request : Request) : Option (Except ParseError Expr × Parser) :=
  request.action p

def after (p : Parser) : List Request → Option Parser
  | [] => some p
  | request :: requests => (p.answer request).bind fun x => x.2.after requests

end Parser

end RuleFormula
