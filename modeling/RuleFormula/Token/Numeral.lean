import RuleFormula.Text.Name

/-! Numerals: ASCII digits, or digits, a point and digits. -/
set_option autoImplicit false

namespace RuleFormula.Numeral

inductive Malformed where
  | noPlaces
  | secondPoint
  | strayCharacter
  deriving DecidableEq

def Malformed.reason : Malformed → String
  | noPlaces => "expected digits after decimal point"
  | secondPoint => "more than one decimal point"
  | strayCharacter => "unexpected character after digits"

def bounded (width : Nat) : List Char → Except Malformed Nat
  | [] => .ok width
  | c :: _ => if Text.isNameStart c then .error .strayCharacter else .ok width

def scan (cs : List Char) : Except Malformed Nat :=
  let whole := (cs.takeWhile Char.isDigit).length
  match cs.dropWhile Char.isDigit with
  | '.' :: rest =>
    let places := (rest.takeWhile Char.isDigit).length
    if places = 0 then .error .noPlaces
    else
      match rest.dropWhile Char.isDigit with
      | '.' :: _ => .error .secondPoint
      | after => bounded (whole + 1 + places) after
  | after => bounded whole after

theorem eq_of_bounded {width w : Nat} {cs : List Char} (h : bounded width cs = .ok w) :
    w = width := by
  unfold bounded at h
  split at h
  · cases h; rfl
  · split at h <;> cases h; rfl

theorem width_pos {c : Char} {cs : List Char} {width : Nat} (hc : c.isDigit = true)
    (h : scan (c :: cs) = .ok width) : 0 < width := by
  have hw : 0 < ((c :: cs).takeWhile Char.isDigit).length := by simp [hc]
  unfold scan at h
  dsimp only at h
  split at h
  · split at h
    · cases h
    · split at h
      · cases h
      · have := eq_of_bounded h; omega
  · have := eq_of_bounded h; omega

/-- All that a message shows of a malformed numeral. -/
def run (cs : List Char) : List Char := cs.takeWhile fun c => Text.isNamePart c || c == '.'

end RuleFormula.Numeral
