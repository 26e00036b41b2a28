import RuleFormula.Location
import RuleFormula.Text.Words

set_option autoImplicit false

namespace RuleFormula

inductive Token.Kind where
  | number | string | boolean | null | identifier | fieldMarker
  | plus | minus | star | slash | caret | percent
  | equals | notEquals | less | lessEqual | greater | greaterEqual
  | and | or | not | ampersand
  | leftParen | rightParen | comma | dot
  | endOfInput
  deriving DecidableEq

namespace Token.Kind

def all : List Token.Kind :=
  [number, string, boolean, null, identifier, fieldMarker, plus, minus, star, slash, caret,
    percent, equals, notEquals, less, lessEqual, greater, greaterEqual, and, or, not, ampersand,
    leftParen, rightParen, comma, dot, endOfInput]

def name : Token.Kind → String
  | number => "NUMBER"
  | string => "STRING"
  | boolean => "BOOLEAN"
  | null => "NULL"
  | identifier => "IDENTIFIER"
  | fieldMarker => "FIELD_MARKER"
  | plus => "PLUS"
  | minus => "MINUS"
  | star => "MULTIPLY"
  | slash => "DIVIDE"
  | caret => "POWER"
  | percent => "MODULO"
  | equals => "EQUALS"
  | notEquals => "NOT_EQUALS"
  | less => "LESS_THAN"
  | lessEqual => "LESS_THAN_OR_EQUAL"
  | greater => "GREATER_THAN"
  | greaterEqual => "GREATER_THAN_OR_EQUAL"
  | and => "AND"
  | or => "OR"
  | not => "NOT"
  | ampersand => "AMPERSAND"
  | leftParen => "LPAREN"
  | rightParen => "RPAREN"
  | comma => "COMMA"
  | dot => "DOT"
  | endOfInput => "EOF"

def describe : Token.Kind → String
  | number => "number"
  | string => "string"
  | boolean => "boolean"
  | null => "null"
  | identifier => "identifier"
  | fieldMarker => "'$'"
  | plus => "'+'"
  | minus => "'-'"
  | star => "'*'"
  | slash => "'/'"
  | caret => "'^'"
  | percent => "'%'"
  | equals => "'='"
  | notEquals => "'!='"
  | less => "'<'"
  | lessEqual => "'<='"
  | greater => "'>'"
  | greaterEqual => "'>='"
  | and => "'&&'"
  | or => "'||'"
  | not => "'!'"
  | ampersand => "'&'"
  | leftParen => "'('"
  | rightParen => "')'"
  | comma => "','"
  | dot => "'.'"
  | endOfInput => "end of input"

end Token.Kind

/-- The six reserved words. They are read as identifiers; the grammar tells them apart. -/
inductive Keyword where
  | and | or | not | true | false | null
  deriving DecidableEq

namespace Keyword

def all : List Keyword := [and, or, not, true, false, null]

def spelling : Keyword → String
  | and => "AND"
  | or => "OR"
  | not => "NOT"
  | true => "TRUE"
  | false => "FALSE"
  | null => "NULL"

def ofText? (s : String) : Option Keyword := all.find? fun k => Text.sameWord s k.spelling

end Keyword

structure Token where
  kind : Token.Kind
  text : String
  location : Location
  deriving DecidableEq

namespace Token

def atEnd (l : Location) : Token := ⟨.endOfInput, "", l⟩

def isWord (t : Token) (word : String) : Bool :=
  t.kind = .identifier && Text.sameWord t.text word

def keyword? (t : Token) : Option Keyword :=
  if t.kind = .identifier then Keyword.ofText? t.text else none

def toText (t : Token) : String :=
  match t.kind with
  | .endOfInput => "end of input"
  | .number | .string | .boolean | .null => t.kind.describe ++ " " ++ t.text
  | .identifier => "identifier '" ++ t.text ++ "'"
  | _ => "'" ++ t.text ++ "'"

end Token

end RuleFormula
