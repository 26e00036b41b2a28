import RuleFormula.Proofs.Token.Lexeme

set_option autoImplicit false

namespace RuleFormula

/-- With the first character of its closing behind it, the body of a comment holds no closing. -/
inductive Gap : List Char → Prop
  | nil : Gap []
  | blank {c : Char} {cs : List Char} (h : Text.isBlank c = true) (gap : Gap cs) : Gap (c :: cs)
  | comment {body cs : List Char} (h : ¬ ['*', '/'] <:+: body ++ ['*']) (gap : Gap cs) :
      Gap ('/' :: '*' :: (body ++ '*' :: '/' :: cs))

namespace Trivia

theorem comment_append {body : List Char} (h : ¬ ['*', '/'] <:+: body ++ ['*']) (cs : List Char) :
    comment (body ++ '*' :: '/' :: cs) =
      some (body ++ '*' :: '/' :: (split cs).1, (split cs).2) := by
  induction body with
  | nil => rfl
  | cons c body ih =>
    rw [List.cons_append, List.infix_cons_iff, not_or] at h
    obtain ⟨hfirst, hbody⟩ := h
    have early (ds : List Char) (hc : c = '*')
        (hds : body ++ '*' :: '/' :: cs = '/' :: ds) : False := by
      cases body with
      | nil => simp at hds
      | cons d body =>
        obtain rfl : d = '/' := (List.cons.inj hds).1
        exact hfirst (by simp [hc])
    rw [List.cons_append, comment.eq_3 _ _ early, ih hbody]
    rfl

theorem gap_split_comment :
    (∀ cs, Gap (split cs).1) ∧ ∀ cs, ∀ cut ∈ comment cs, ∃ body gap,
      cut.1 = body ++ '*' :: '/' :: gap ∧ ¬ ['*', '/'] <:+: body ++ ['*'] ∧ Gap gap := by
  apply split.mutual_induct
  · exact .nil
  · intro cs cut h ih
    obtain ⟨body, gap, hcut, hbody, hgap⟩ := ih cut h
    simp only [split, h, cons, hcut]
    exact .comment hbody hgap
  · intro cs h _
    simpa only [split, h] using Gap.nil
  · intro c cs hc hb ih
    rw [split.eq_3 _ _ hc, if_pos hb]
    exact .blank hb ih
  · intro c cs hc hb
    rw [split.eq_3 _ _ hc, if_neg hb]
    exact .nil
  · simp [comment]
  · intro cs ih cut h
    obtain rfl := Option.some.inj h
    exact ⟨[], _, rfl, by decide, ih⟩
  · intro c cs hc ih cut h
    rw [comment.eq_3 _ _ hc] at h
    obtain ⟨d, hd, rfl⟩ := Option.map_eq_some_iff.1 h
    obtain ⟨body, gap, hcut, hbody, hgap⟩ := ih d hd
    have happend := append_split_comment.2 cs d hd
    refine ⟨c :: body, gap, by simp [cons, hcut], ?_, hgap⟩
    rw [List.cons_append, List.infix_cons_iff, not_or]
    refine ⟨fun hfirst => ?_, hbody⟩
    -- A closing at the very start would have ended the comment there.
    obtain ⟨rest, hrest⟩ := hfirst
    cases body with
    | nil => simp at hrest
    | cons e body =>
      simp only [List.cons_append, List.cons.injEq] at hrest
      obtain ⟨rfl, rfl, -⟩ := hrest
      exact hc (body ++ '*' :: '/' :: gap ++ d.2) rfl (by rw [← happend, hcut]; rfl)

theorem gap_split (cs : List Char) : Gap (split cs).1 := gap_split_comment.1 cs

theorem split_append {gap rest : List Char} (g : Gap gap) (h : split rest = ([], rest)) :
    split (gap ++ rest) = (gap, rest) := by
  induction g with
  | nil => exact h
  | @blank c cs hb gap ih =>
    have hc (ds : List Char) (he : c = '/') (_ : cs ++ rest = '*' :: ds) : False := by
      subst he
      exact absurd hb (by decide)
    rw [List.cons_append, split.eq_3 _ _ hc, if_pos hb, ih]
    rfl
  | @comment body cs hb gap ih =>
    have hcomment := comment_append hb (cs ++ rest)
    rw [ih] at hcomment
    simp only [List.cons_append, List.append_assoc, split, hcomment]
    rfl

end Trivia

end RuleFormula
