import RuleFormula.Text.Lines

set_option autoImplicit false

namespace RuleFormula

/-- Members are kept, and written, in the order in which they are listed. -/
inductive Json where
  | null
  | bool (value : Bool)
  | number (value : Nat)
  | string (value : String)
  | array (items : List Json)
  | object (members : List (String × Json))

namespace Json

def hexDigits (n : Nat) : List Char := [Nat.digitChar (n / 16), Nat.digitChar (n % 16)]

/-- Control characters have a short escape or a numbered one. -/
def escapeChar (c : Char) : List Char :=
  match c with
  | '"' => ['\\', '"']
  | '\\' => ['\\', '\\']
  | '\x08' => ['\\', 'b']
  | '\t' => ['\\', 't']
  | '\n' => ['\\', 'n']
  | '\x0c' => ['\\', 'f']
  | '\r' => ['\\', 'r']
  | c => if c.toNat < 0x20 then ['\\', 'u', '0', '0'] ++ hexDigits c.toNat else [c]

def quote (s : String) : String := "\"" ++ String.ofList (s.toList.flatMap escapeChar) ++ "\""

mutual

def writeCompact (out : String) : Json → String
  | null => out ++ "null"
  | bool true => out ++ "true"
  | bool false => out ++ "false"
  | number n => out ++ n.repr
  | string s => out ++ quote s
  | array items => writeItems (out ++ "[") items ++ "]"
  | object members => writeMembers (out ++ "\x7b") members ++ "\x7d"

def writeItems (out : String) : List Json → String
  | [] => out
  | [j] => writeCompact out j
  | j :: js => writeItems (writeCompact out j ++ ",") js

def writeMembers (out : String) : List (String × Json) → String
  | [] => out
  | [(name, j)] => writeCompact (out ++ quote name ++ ":") j
  | (name, j) :: js => writeMembers (writeCompact (out ++ quote name ++ ":") j ++ ",") js

end

def compact (j : Json) : String := writeCompact "" j

def newLine (depth : Nat) : String := "\n" ++ Text.blanks (2 * depth)

mutual

/-- Writes a value behind `out`, one item or member a line, two spaces further in at each depth. -/
def writePretty (out : String) (depth : Nat) : Json → String
  | null => out ++ "null"
  | bool true => out ++ "true"
  | bool false => out ++ "false"
  | number n => out ++ n.repr
  | string s => out ++ quote s
  | array [] => out ++ "[]"
  | array (j :: js) =>
    writePrettyItems (out ++ "[") (depth + 1) (j :: js) ++ newLine depth ++ "]"
  | object [] => out ++ "\x7b\x7d"
  | object (m :: ms) =>
    writePrettyMembers (out ++ "\x7b") (depth + 1) (m :: ms) ++ newLine depth ++ "\x7d"

def writePrettyItems (out : String) (depth : Nat) : List Json → String
  | [] => out
  | [j] => writePretty (out ++ newLine depth) depth j
  | j :: js => writePrettyItems (writePretty (out ++ newLine depth) depth j ++ ",") depth js

def writePrettyMembers (out : String) (depth : Nat) : List (String × Json) → String
  | [] => out
  | [(name, j)] => writePretty (out ++ newLine depth ++ quote name ++ ": ") depth j
  | (name, j) :: js =>
    writePrettyMembers
      (writePretty (out ++ newLine depth ++ quote name ++ ": ") depth j ++ ",") depth js

end

def pretty (j : Json) : String := writePretty "" 0 j

end Json

end RuleFormula
