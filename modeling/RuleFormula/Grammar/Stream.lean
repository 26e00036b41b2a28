import RuleFormula.Grammar.Expression

set_option autoImplicit false

namespace RuleFormula

/-- The last token is kept apart from the others, as no reading ever takes it. -/
structure TokenStream where
  body : List Token
  ending : Token
  deriving DecidableEq

namespace TokenStream

def ofTokens (ts : List Token) : Except ParseError TokenStream :=
  match ts.getLast? with
  | none => .error ⟨.noTokens, none⟩
  | some last =>
    if last.kind ≠ .endOfInput then .error ⟨.noEnd, some last.location⟩
    else
      match ts.dropLast.find? fun t => t.kind = .endOfInput with
      | some early => .error ⟨.earlyEnd, some early.location⟩
      | none => .ok ⟨ts.dropLast, last⟩

def current (s : TokenStream) : Token := s.body.head?.getD s.ending

def explain (s : TokenStream) (limit : Nat) : Grammar.Fault → ParseError
  | .expected what => ⟨.unexpected what s.body.head?, some s.current.location⟩
  | .trailing found => ⟨.trailing found, some s.current.location⟩
  | .tooDeep => ⟨.tooDeep limit, some s.current.location⟩
  | .keyword word => ⟨.keyword word.text, some word.location⟩
  | .invalidNumber text fault => ⟨.invalidNumber text fault, some s.current.location⟩
  | .invalidBoolean text => ⟨.invalidBoolean text, some s.current.location⟩

/-- Reads off the head of the stream. Also after a fault, the stream goes on where reading
stopped. -/
def run (s : TokenStream) (limit : Nat) (reader : Option Grammar.Inner → Grammar.Reader Expr) :
    Except ParseError Expr × TokenStream :=
  match reader (Grammar.Inner.within limit) s.body with
  | .ok e rest => (.ok e, ⟨rest, s.ending⟩)
  | .error fault rest =>
    let stopped : TokenStream := ⟨rest, s.ending⟩
    (.error (stopped.explain limit fault), stopped)

def readExpression (s : TokenStream) (limit : Nat) : Except ParseError Expr × TokenStream :=
  s.run limit Grammar.expression

def readFormula (s : TokenStream) (limit : Nat) : Except ParseError Expr × TokenStream :=
  s.run limit Grammar.complete

end TokenStream

def parseTokens (limit : Nat) (ts : List Token) : Except ParseError Expr := do
  let s ← TokenStream.ofTokens ts
  (s.readFormula limit).1

end RuleFormula
