import RuleFormula.Text.Alphabetic
import RuleFormula.Text.Numeric

set_option autoImplicit false

namespace RuleFormula.Text

def isNameStart (c : Char) : Bool := isAlphabetic c || c == '_'

def isNamePart (c : Char) : Bool := isAlphabetic c || isNumeric c || c == '_'

theorem isNamePart_of_isNameStart {c : Char} (h : isNameStart c = true) :
    isNamePart c = true := by
  simp only [isNameStart, isNamePart, Bool.or_eq_true] at *
  rcases h with h | h <;> simp [h]

end RuleFormula.Text
