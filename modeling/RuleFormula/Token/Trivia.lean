import RuleFormula.Text.Blank

/-! What may stand between tokens: blanks and comments. A comment runs from its opening to the first
closing behind it; one that is never closed is no trivia, and the split stops in front of it. -/
set_option autoImplicit false

namespace RuleFormula.Trivia

def cons (c : Char) (cut : List Char × List Char) : List Char × List Char := (c :: cut.1, cut.2)

mutual

def split : List Char → List Char × List Char
  | [] => ([], [])
  | '/' :: '*' :: cs =>
    match comment cs with
    | some cut => cons '/' (cons '*' cut)
    | none => ([], '/' :: '*' :: cs)
  | c :: cs => if Text.isBlank c then cons c (split cs) else ([], c :: cs)

/-- Inside a comment: the rest of it and the trivia behind it, if it is ever closed. -/
def comment : List Char → Option (List Char × List Char)
  | [] => none
  | '*' :: '/' :: cs => some (cons '*' (cons '/' (split cs)))
  | c :: cs => (comment cs).map (cons c)

end

theorem append_split_comment :
    (∀ cs, (split cs).1 ++ (split cs).2 = cs) ∧
      ∀ cs, ∀ cut ∈ comment cs, cut.1 ++ cut.2 = cs := by
  apply split.mutual_induct
  · rfl
  · intro cs cut h ih
    simpa [split, h, cons] using ih cut h
  · intro cs h _
    simp [split, h]
  · intro c cs hc hb ih
    rw [split]
    · simpa [hb, cons] using ih
    · exact hc
  · intro c cs hc hb
    rw [split]
    · simp [hb]
    · exact hc
  · simp [comment]
  · intro cs ih
    simp [comment, cons, ih]
  · intro c cs hc ih cut h
    rw [comment] at h
    · obtain ⟨d, hd, rfl⟩ := Option.map_eq_some_iff.1 h
      simpa [cons] using ih d hd
    · exact hc

theorem append_split (cs : List Char) : (split cs).1 ++ (split cs).2 = cs :=
  append_split_comment.1 cs

theorem length_split_le (cs : List Char) : (split cs).2.length ≤ cs.length := by
  have h := congrArg List.length (append_split cs)
  rw [List.length_append] at h
  omega

end RuleFormula.Trivia
