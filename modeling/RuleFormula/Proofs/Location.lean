import RuleFormula.Location

set_option autoImplicit false

namespace RuleFormula.Location

/-- Where the character of a number is: below so many line feeds, and behind so many characters on
its line. -/
def locate (cs : List Char) (offset : Nat) : Location :=
  ⟨offset, 1 + (cs.take offset).count '\n',
    1 + ((cs.take offset).reverse.takeWhile (· != '\n')).length⟩

/-- A true place in a text. -/
def In (cs : List Char) (l : Location) : Prop := l.offset ≤ cs.length ∧ l = locate cs l.offset

/-- On an earlier line, or further left on the same line. -/
def Precedes (a b : Location) : Prop := a.line < b.line ∨ a.line = b.line ∧ a.column < b.column

theorem locate_length (cs : List Char) : locate cs cs.length =
    ⟨cs.length, 1 + cs.count '\n', 1 + (cs.reverse.takeWhile (· != '\n')).length⟩ := by
  simp [locate]

theorem step_locate (cs : List Char) (c : Char) :
    (locate cs cs.length).step c = locate (cs ++ [c]) (cs ++ [c]).length := by
  rw [locate_length, locate_length]
  by_cases hc : c = '\n'
  · simp [step, hc, Nat.add_assoc]
  · simp [step, hc, Nat.add_assoc]

theorem advance_locate (before cs : List Char) :
    (locate before before.length).advance cs = locate (before ++ cs) (before ++ cs).length := by
  induction cs generalizing before with
  | nil => simp
  | cons c cs ih => rw [advance_cons, step_locate, ih, List.append_assoc, List.singleton_append]

theorem advance_start (cs : List Char) : start.advance cs = locate cs cs.length :=
  advance_locate [] cs

theorem advance_start_in (before rest : List Char) :
    (start.advance before).In (before ++ rest) := by
  refine ⟨?_, ?_⟩
  · rw [advance_start, List.length_append]
    exact Nat.le_add_right before.length rest.length
  · simp [advance_start, locate]

theorem locate_eq_advance {cs : List Char} {offset : Nat} (h : offset ≤ cs.length) :
    locate cs offset = start.advance (cs.take offset) := by
  rw [advance_start, locate_length, List.length_take, Nat.min_eq_left h]
  rfl

theorem line_advance (l : Location) (cs : List Char) :
    l.line < (l.advance cs).line ∨
      (l.advance cs).line = l.line ∧ (l.advance cs).column = l.column + cs.length := by
  induction cs generalizing l with
  | nil => simp
  | cons c cs ih =>
    have h := ih (l.step c)
    rw [advance_cons, List.length_cons]
    by_cases hc : c = '\n'
    · simp only [step, hc, if_true] at h ⊢
      omega
    · simp only [step, hc, if_false] at h ⊢
      omega

theorem precedes_advance (l : Location) {cs : List Char} (h : cs ≠ []) :
    l.Precedes (l.advance cs) := by
  have hlen := List.length_pos_iff.2 h
  rcases l.line_advance cs with hl | ⟨hl, hc⟩
  · exact .inl hl
  · exact .inr ⟨hl.symm, by omega⟩

theorem locate_precedes {cs : List Char} {a b : Nat} (h : a < b) (hb : b ≤ cs.length) :
    (locate cs a).Precedes (locate cs b) := by
  have hsplit : cs.take b = cs.take a ++ (cs.drop a).take (b - a) := by
    rw [← List.take_add, Nat.add_sub_cancel' (Nat.le_of_lt h)]
  rw [locate_eq_advance hb, locate_eq_advance (by omega), hsplit, advance_append]
  apply precedes_advance
  intro he
  have hlen := congrArg List.length he
  simp only [List.length_take, List.length_drop, List.length_nil] at hlen
  omega

theorem Precedes.asymm {a b : Location} (h : a.Precedes b) : ¬ b.Precedes a := by
  unfold Precedes at *
  omega

theorem offset_lt_iff {cs : List Char} {a b : Location} (ha : a.In cs) (hb : b.In cs) :
    a.offset < b.offset ↔ a.Precedes b := by
  obtain ⟨hla, ea⟩ := ha
  obtain ⟨hlb, eb⟩ := hb
  constructor
  · intro h
    rw [ea, eb]
    exact locate_precedes h hlb
  · intro h
    rcases Nat.lt_trichotomy a.offset b.offset with hlt | heq | hgt
    · exact hlt
    · rw [ea, eb, heq] at h
      exact absurd h h.asymm
    · have hba : b.Precedes a := by
        rw [ea, eb]
        exact locate_precedes hgt hla
      exact absurd h hba.asymm

end RuleFormula.Location
