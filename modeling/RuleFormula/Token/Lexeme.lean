import RuleFormula.Token.Error
import RuleFormula.Token.Quoted
import RuleFormula.Token.Symbol

/-! What stands at the head of a text once the trivia are gone. Nothing here depends on where in the
source the text is. -/
set_option autoImplicit false

namespace RuleFormula

/-- Widths and places are counts of characters from the head. A fault is reported at `place`, and
reading goes on from `stop`. -/
inductive Lexeme where
  | token (kind : Token.Kind) (width : Nat)
  | fault (cause : LexError.Cause) (place stop : Nat)
  | none
  deriving DecidableEq

namespace Lexeme

def ofQuoted (quote : Char) (cs : List Char) : Lexeme :=
  match Quoted.scan quote (cs.drop 1) with
  | .closed width => token .string (width + 1)
  | .badEscape place c => fault (.invalidEscape c) (place + 1) (place + 2)
  | .unclosed => fault .unterminatedString 0 cs.length

def ofNumeral (cs : List Char) : Lexeme :=
  match Numeral.scan cs with
  | .error e => fault (.malformedNumber (String.ofList (Numeral.run cs)) e) 0
      (Numeral.run cs).length
  | .ok width =>
    let text := String.ofList (cs.take width)
    match Decimal.read text with
    | .error e => fault (.inexactNumber text e) 0 width
    | .ok _ => token .number width

/-- `c` is no quote, no digit and no name start. A comment that could not be skipped is unclosed. -/
def ofSymbol (c : Char) (cs : List Char) : Lexeme :=
  if ['/', '*'].isPrefixOf (c :: cs) then fault .unterminatedComment 0 (c :: cs).length
  else
    match Symbol.scan? (c :: cs) with
    | some (kind, width) => token kind width
    | .none => fault (.unexpectedCharacter c) 0 0

def scan : List Char → Lexeme
  | [] => none
  | c :: cs =>
    if c = '\'' ∨ c = '"' then ofQuoted c (c :: cs)
    else if c.isDigit then ofNumeral (c :: cs)
    else if Text.isNameStart c then token .identifier ((c :: cs).takeWhile Text.isNamePart).length
    else ofSymbol c cs

theorem ne_nil_of_scan {cs : List Char} {kind : Token.Kind} {width : Nat}
    (h : scan cs = token kind width) : cs ≠ [] := by
  rintro rfl
  simp [scan] at h

theorem width_pos {cs : List Char} {kind : Token.Kind} {width : Nat}
    (h : scan cs = token kind width) : 0 < width := by
  cases cs with
  | nil => simp [scan] at h
  | cons c cs =>
    rw [scan] at h
    split at h
    · unfold ofQuoted at h
      split at h <;> cases h
      omega
    split at h
    next hc =>
      unfold ofNumeral at h
      split at h
      · cases h
      next w hw =>
        dsimp only at h
        split at h <;> cases h
        exact Numeral.width_pos hc hw
    split at h
    next hc =>
      cases h
      simp [Text.isNamePart_of_isNameStart hc]
    · unfold ofSymbol at h
      split at h
      · cases h
      · split at h <;> cases h
        next hs => exact Symbol.pos_of_scan? hs

end Lexeme

end RuleFormula
