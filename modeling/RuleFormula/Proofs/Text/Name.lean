import RuleFormula.Text.Blank
import RuleFormula.Text.Name

set_option autoImplicit false

namespace RuleFormula.Text

/-- Some range of either set comes wholly before or after every range of the other. -/
def Ranges.Apart (rs ss : Ranges) : Prop := ∀ r ∈ rs, ∀ s ∈ ss, r.2 < s.1 ∨ s.2 < r.1

instance (rs ss : Ranges) : Decidable (rs.Apart ss) :=
  inferInstanceAs (Decidable (∀ r ∈ rs, ∀ s ∈ ss, r.2 < s.1 ∨ s.2 < r.1))

theorem Ranges.Apart.not_contains {rs ss : Ranges} (h : rs.Apart ss) (hr : rs.increasing = true)
    (hs : ss.increasing = true) {n : Nat} (hn : rs.contains n = true) : ss.contains n = false := by
  obtain ⟨r, hr, hlo, hhi⟩ := (contains_iff hr n).1 hn
  rw [Bool.eq_false_iff]
  intro hc
  obtain ⟨s, hs, hlo', hhi'⟩ := (contains_iff hs n).1 hc
  rcases h r hr s hs with h | h <;> omega

def digitRanges : Ranges := [(0x30, 0x39)]

theorem isDigit_eq_contains (c : Char) : c.isDigit = digitRanges.contains c.toNat := by
  simp [Char.isDigit, digitRanges, Ranges.contains, UInt32.le_iff_toNat_le]

theorem alphabetic_apart_blank : alphabeticRanges.Apart blankRanges := by decide +kernel

theorem alphabetic_apart_digit : alphabeticRanges.Apart digitRanges := by decide +kernel

theorem numeric_apart_blank : numericRanges.Apart blankRanges := by decide +kernel

theorem isBlank_of_isNamePart {c : Char} (h : isNamePart c = true) : isBlank c = false := by
  simp only [isNamePart, Bool.or_eq_true, beq_iff_eq] at h
  rcases h with (h | h) | rfl
  · exact alphabetic_apart_blank.not_contains alphabeticRanges_increasing blankRanges_increasing h
  · exact numeric_apart_blank.not_contains numericRanges_increasing blankRanges_increasing h
  · decide

theorem isDigit_of_isNameStart {c : Char} (h : isNameStart c = true) : c.isDigit = false := by
  simp only [isNameStart, Bool.or_eq_true, beq_iff_eq] at h
  rcases h with h | rfl
  · rw [isDigit_eq_contains]
    exact alphabetic_apart_digit.not_contains alphabeticRanges_increasing (by decide) h
  · decide

theorem isNamePart_of_isDigit {c : Char} (h : c.isDigit = true) : isNamePart c = true := by
  simp [isNamePart, isNumeric_of_isDigit h]

theorem ne_of_isNameStart {c d : Char} (h : isNameStart c = true) (hd : isNameStart d = false) :
    c ≠ d := by
  intro he
  subst he
  rw [h] at hd
  cases hd

def isName : List Char → Bool
  | [] => false
  | c :: cs => isNameStart c && cs.all isNamePart

def IsName (s : String) : Prop := isName s.toList = true

instance (s : String) : Decidable (IsName s) := inferInstanceAs (Decidable (_ = true))

theorem isName_iff {cs : List Char} :
    isName cs = true ↔ ∃ c ∈ cs.head?, isNameStart c = true ∧ ∀ d ∈ cs, isNamePart d = true := by
  cases cs with
  | nil => simp [isName]
  | cons c cs =>
    simp only [isName, Bool.and_eq_true, List.all_eq_true, List.head?_cons, Option.mem_some_iff,
      exists_eq_left', List.mem_cons, forall_eq_or_imp]
    constructor
    · intro hx
      obtain ⟨h, hs⟩ := hx
      exact ⟨h, isNamePart_of_isNameStart h, hs⟩
    · intro hx
      obtain ⟨h, -, hs⟩ := hx
      exact ⟨h, hs⟩

end RuleFormula.Text
