import RuleFormula.Expr.Basic
import RuleFormula.Json.Basic
import RuleFormula.Token.Basic

/-! Tokens and trees as JSON. Members are listed in the order of their names. Numbers are written as
strings, so that no digit is lost. -/
set_option autoImplicit false

namespace RuleFormula

def Token.toJson (t : Token) : Json :=
  .object [("column", .number t.location.column), ("kind", .string t.kind.name),
    ("line", .number t.location.line), ("offset", .number t.location.offset),
    ("text", .string t.text)]

def Literal.typeName : Literal → String
  | number _ => "NUMBER"
  | string _ => "STRING"
  | boolean _ => "BOOLEAN"
  | null => "NULL"

def Literal.toJson : Literal → Json
  | number d => .string d.toText
  | string s => .string s
  | boolean b => .bool b
  | null => .null

namespace Expr

mutual

def toJson : Expr → Json
  | binary op left right p =>
    .object [("left", toJson left), ("operator", .string op.symbol), ("position", .number p),
      ("right", toJson right), ("type", .string "binary")]
  | unary op operand p =>
    .object [("operand", toJson operand), ("operator", .string op.symbol),
      ("position", .number p), ("type", .string "unary")]
  | call name args p =>
    .object [("arguments", .array (toJsonList args)), ("name", .string name),
      ("position", .number p), ("type", .string "call")]
  | literal value p =>
    .object [("literalType", .string value.typeName), ("position", .number p),
      ("type", .string "literal"), ("value", value.toJson)]
  | field path p =>
    .object [("path", .array (path.map .string)), ("position", .number p),
      ("type", .string "field")]

def toJsonList : List Expr → List Json
  | [] => []
  | e :: es => toJson e :: toJsonList es

end

end Expr

end RuleFormula
