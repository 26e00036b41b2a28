import RuleFormula.Decimal.Basic

/-! Reading a decimal from text without rounding. A text with more digits than a decimal holds is
refused. -/
set_option autoImplicit false

namespace RuleFormula.Decimal

inductive ReadError where
  | empty
  | noDigits
  | secondPoint
  | leadingUnderscore
  | unknownCharacter
  | overflow
  | tooPrecise
  deriving DecidableEq

def ReadError.message : ReadError → String
  | empty => "Invalid decimal: empty"
  | noDigits => "Invalid decimal: no digits found"
  | secondPoint => "Invalid decimal: two decimal points"
  | leadingUnderscore => "Invalid decimal: must start lead with a number"
  | unknownCharacter => "Invalid decimal: unknown character"
  | overflow => "Invalid decimal: overflow from too many digits"
  | tooPrecise => "Number has a high precision that can not be represented."

def digitValue (c : Char) : Nat := c.toNat - '0'.toNat

/-- Reads on after the sign. `point` tells that the decimal point is behind, `digit` that a digit
is. Nothing may follow the last decimal place that fits, not even an underscore. -/
def readDigits (point digit : Bool) (d : Decimal) : List Char → Except ReadError Decimal
  | [] => if digit then .ok d else .error .noDigits
  | c :: cs =>
    if d.scale = 28 then .error .tooPrecise
    else if c.isDigit then
      match d.push? point (digitValue c) with
      | some d => readDigits point true d cs
      | none => .error (if point then .tooPrecise else .overflow)
    else if c = '.' then
      if point then .error .secondPoint else readDigits true digit d cs
    else if c = '_' then
      if digit then readDigits point digit d cs else .error .leadingUnderscore
    else .error .unknownCharacter

def readSigned : List Char → Except ReadError Decimal
  | [] => .error .empty
  | '-' :: cs => (readDigits false false zero cs).map neg
  | '+' :: cs => readDigits false false zero cs
  | cs => readDigits false false zero cs

def read (s : String) : Except ReadError Decimal := readSigned s.toList

end RuleFormula.Decimal
