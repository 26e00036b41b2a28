set_option autoImplicit false

namespace RuleFormula.Text

/-- `Char.toUpper` changes ASCII letters only, so `ſ` is no spelling of `S`. -/
def upper (s : String) : List Char := s.toList.map Char.toUpper

def sameWord (a b : String) : Bool := upper a == upper b

theorem sameWord_iff {a b : String} : sameWord a b = true ↔ upper a = upper b := by
  simp [sameWord]

end RuleFormula.Text
