import RuleFormula.Decimal.Reader
import RuleFormula.Location
import RuleFormula.Token.Numeral

set_option autoImplicit false

namespace RuleFormula

inductive LexError.Cause where
  | unterminatedComment
  | unterminatedString
  | invalidEscape (c : Char)
  | malformedNumber (text : String) (fault : Numeral.Malformed)
  | inexactNumber (text : String) (fault : Decimal.ReadError)
  | unexpectedCharacter (c : Char)
  deriving DecidableEq

structure LexError where
  cause : LexError.Cause
  location : Location
  deriving DecidableEq

namespace LexError

def Cause.message : Cause → String
  | unterminatedComment => "Unterminated comment"
  | unterminatedString => "Unterminated string: missing closing quote"
  | invalidEscape c => "Invalid escape sequence '\\" ++ String.singleton c ++ "' in string"
  | malformedNumber text fault => "Malformed number '" ++ text ++ "': " ++ fault.reason
  | inexactNumber text fault =>
    "Number '" ++ text ++ "' cannot be represented exactly: " ++ fault.message
  | unexpectedCharacter '|' => "Unexpected character '|' (did you mean '||'?)"
  | unexpectedCharacter c => "Unexpected character '" ++ String.singleton c ++ "'"

def message (e : LexError) : String := e.cause.message

end LexError

end RuleFormula
