import RuleFormula.Token.Lexeme
import RuleFormula.Token.Trivia

/-! Reading tokens off a source one by one. A cursor holds the characters still to be read and the
place of the first of them, so a failed reading leaves a cursor to go on from. -/
set_option autoImplicit false

namespace RuleFormula

structure Cursor where
  rest : List Char
  location : Location
  deriving DecidableEq

namespace Cursor

def ofSource (s : String) : Cursor := ⟨s.toList, .start⟩

def skip (c : Cursor) (width : Nat) : Cursor :=
  ⟨c.rest.drop width, c.location.advance (c.rest.take width)⟩

def skipTrivia (c : Cursor) : Cursor :=
  let cut := Trivia.split c.rest
  ⟨cut.2, c.location.advance cut.1⟩

def readLexeme (c : Cursor) : Except LexError Token × Cursor :=
  match Lexeme.scan c.rest with
  | .token kind width =>
    (.ok ⟨kind, String.ofList (c.rest.take width), c.location⟩, c.skip width)
  | .fault cause place stop => (.error ⟨cause, (c.skip place).location⟩, c.skip stop)
  | .none => (.ok (.atEnd c.location), c)

/-- At the end of the source, and ever after, the token read is the end of input. -/
def next (c : Cursor) : Except LexError Token × Cursor := c.skipTrivia.readLexeme

theorem length_readLexeme_lt {c d : Cursor} {t : Token} (h : c.readLexeme = (.ok t, d))
    (ht : t.kind ≠ .endOfInput) : d.rest.length < c.rest.length := by
  unfold readLexeme at h
  split at h
  next kind width hs =>
    cases h
    have hw := Lexeme.width_pos hs
    have hr := Lexeme.ne_nil_of_scan hs
    have := List.length_pos_iff.2 hr
    simp only [skip, List.length_drop]
    omega
  next => simp at h
  next =>
    cases h
    exact absurd rfl ht

theorem length_next_lt {c d : Cursor} {t : Token} (h : c.next = (.ok t, d))
    (ht : t.kind ≠ .endOfInput) : d.rest.length < c.rest.length :=
  Nat.lt_of_lt_of_le (length_readLexeme_lt h ht) (Trivia.length_split_le c.rest)

/-- All tokens up to the end of input, which is the last one. -/
def tokens (c : Cursor) : Except LexError (List Token) :=
  match _h : c.next with
  | (.error e, _) => .error e
  | (.ok t, d) =>
    if _ht : t.kind = .endOfInput then .ok [t] else d.tokens.map (t :: ·)
termination_by c.rest.length
decreasing_by exact length_next_lt (by assumption) (by assumption)

theorem tokens_of_error {c d : Cursor} {e : LexError} (h : c.next = (.error e, d)) :
    c.tokens = .error e := by
  rw [tokens]
  split <;> simp_all

theorem tokens_of_end {c d : Cursor} {t : Token} (h : c.next = (.ok t, d))
    (ht : t.kind = .endOfInput) : c.tokens = .ok [t] := by
  rw [tokens]
  split <;> simp_all

theorem tokens_of_token {c d : Cursor} {t : Token} (h : c.next = (.ok t, d))
    (ht : t.kind ≠ .endOfInput) : c.tokens = d.tokens.map (t :: ·) := by
  rw [tokens]
  split <;> simp_all

end Cursor

def tokenize (source : String) : Except LexError (List Token) := (Cursor.ofSource source).tokens

end RuleFormula
