set_option autoImplicit false

namespace RuleFormula.Text

/-- Cuts a text at each line feed. There is always a last line, maybe an empty one. -/
def lines : List Char → List (List Char)
  | [] => [[]]
  | c :: cs =>
    if c = '\n' then [] :: lines cs
    else
      match lines cs with
      | [] => [[c]]
      | line :: rest => (c :: line) :: rest

theorem lines_ne_nil (cs : List Char) : lines cs ≠ [] := by
  cases cs with
  | nil => simp [lines]
  | cons c cs =>
    unfold lines
    split
    · simp
    · split <;> simp

theorem length_lines (cs : List Char) : (lines cs).length = cs.count '\n' + 1 := by
  induction cs with
  | nil => rfl
  | cons c cs ih =>
    unfold lines
    split
    next h => simp [h, ih]
    next h =>
      have hc : (c :: cs).count '\n' = cs.count '\n' := List.count_cons_of_ne (by simpa using h)
      rw [hc, ← ih]
      split
      next hl => exact absurd hl (lines_ne_nil cs)
      next hl => simp [hl]

def dropTrailing (p : Char → Bool) (cs : List Char) : List Char :=
  (cs.reverse.dropWhile p).reverse

def blanks (n : Nat) : String := String.ofList (List.replicate n ' ')

end RuleFormula.Text
