import RuleFormula.Decimal.Reader
import RuleFormula.Token.Basic

set_option autoImplicit false

namespace RuleFormula

inductive Expectation where
  | expression
  | globalName
  | fieldName
  | closing (opened : Location)
  | argumentEnd (function : String)
  deriving DecidableEq

def Expectation.describe : Expectation → String
  | expression => "an expression"
  | globalName => "a global variable name after '$'"
  | fieldName => "a field name after '.'"
  | closing opened => "')' to close '(' at " ++ opened.toText
  | argumentEnd function => "',' or ')' in arguments of " ++ function

/-- `unexpected` without a token found the end of input. -/
inductive ParseError.Cause where
  | unexpected (wanted : Expectation) (found : Option Token)
  | trailing (found : Token)
  | tooDeep (limit : Nat)
  | keyword (text : String)
  | invalidNumber (text : String) (fault : Decimal.ReadError)
  | invalidBoolean (text : String)
  | noTokens
  | noEnd
  | earlyEnd
  deriving DecidableEq

/-- Only an empty list of tokens has no place to report. -/
structure ParseError where
  cause : ParseError.Cause
  location : Option Location
  deriving DecidableEq

namespace ParseError

def Cause.message : Cause → String
  | unexpected wanted none => "Unexpected end of input: expected " ++ wanted.describe
  | unexpected wanted (some t) => "Expected " ++ wanted.describe ++ ", found " ++ t.toText
  | trailing t => "Unexpected " ++ t.toText ++ " after complete expression"
  | tooDeep limit => "Expression is nested too deeply (limit is " ++ limit.repr ++ ")"
  | keyword text => "Expected an expression, found keyword '" ++ text ++ "'"
  | invalidNumber text fault => "Invalid number literal '" ++ text ++ "': " ++ fault.message
  | invalidBoolean text => "Invalid boolean literal '" ++ text ++ "'"
  | noTokens => "Token sequence is empty: expected at least an end-of-input token"
  | noEnd => "Token sequence is not terminated by an end-of-input token"
  | earlyEnd => "End-of-input token appears before the end of the token sequence"

def message (e : ParseError) : String := e.cause.message

end ParseError

end RuleFormula
