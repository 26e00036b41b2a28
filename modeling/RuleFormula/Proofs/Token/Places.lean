import RuleFormula.Proofs.Location
import RuleFormula.Proofs.Token.Reads

set_option autoImplicit false

namespace RuleFormula.Cursor

/-- The cursor has stepped over the front of a text. -/
def On (cs : List Char) (c : Cursor) : Prop :=
  ∃ before, before ++ c.rest = cs ∧ c.location = Location.start.advance before

variable {cs : List Char} {c d : Cursor}

theorem ofSource_on (s : String) : (ofSource s).On s.toList := ⟨[], rfl, rfl⟩

theorem On.location_in (h : c.On cs) : c.location.In cs := by
  obtain ⟨before, rfl, hl⟩ := h
  rw [hl]
  exact Location.advance_start_in before c.rest

theorem On.skip (h : c.On cs) (width : Nat) : (c.skip width).On cs := by
  obtain ⟨before, rfl, hl⟩ := h
  refine ⟨before ++ c.rest.take width, ?_, ?_⟩
  · rw [List.append_assoc]
    exact congrArg (before ++ ·) (List.take_append_drop width c.rest)
  · rw [Location.advance_append, ← hl]
    rfl

theorem On.skipTrivia (h : c.On cs) : c.skipTrivia.On cs := by
  obtain ⟨before, rfl, hl⟩ := h
  refine ⟨before ++ (Trivia.split c.rest).1, ?_, ?_⟩
  · rw [List.append_assoc]
    exact congrArg (before ++ ·) (Trivia.append_split c.rest)
  · rw [Location.advance_append, ← hl]
    rfl

theorem On.readLexeme (h : c.On cs) : c.readLexeme.2.On cs ∧
    (∀ t, c.readLexeme.1 = .ok t → t.location.In cs) ∧
    ∀ e, c.readLexeme.1 = .error e → e.location.In cs := by
  unfold Cursor.readLexeme
  split
  · refine ⟨h.skip _, fun t ht => ?_, fun e he => (nomatch he)⟩
    cases ht
    exact h.location_in
  · refine ⟨h.skip _, fun t ht => (nomatch ht), fun e he => ?_⟩
    cases he
    exact (h.skip _).location_in
  · refine ⟨h, fun t ht => ?_, fun e he => (nomatch he)⟩
    cases ht
    exact h.location_in

theorem On.next (h : c.On cs) : c.next.2.On cs ∧ (∀ t, c.next.1 = .ok t → t.location.In cs) ∧
    ∀ e, c.next.1 = .error e → e.location.In cs :=
  h.skipTrivia.readLexeme

/-- Where single readings of a source lead, also on from an error. -/
inductive Reached (s : String) : Cursor → Prop
  | start : Reached s (ofSource s)
  | next {c : Cursor} (h : Reached s c) : Reached s c.next.2

theorem Reached.on {s : String} (h : Reached s c) : c.On s.toList := by
  induction h with
  | start => exact ofSource_on s
  | next _ ih => exact ih.next.1

theorem On.tokens (h : c.On cs) : (∀ ts, c.tokens = .ok ts → ∀ t ∈ ts, t.location.In cs) ∧
    ∀ e, c.tokens = .error e → e.location.In cs := by
  induction hn : c.rest.length using Nat.strongRecOn generalizing c with
  | _ n ih =>
    obtain ⟨hd, htoken, herror⟩ := h.next
    cases hnext : c.next with
    | mk result d =>
      rw [hnext] at hd htoken herror
      cases result with
      | error e =>
        rw [tokens_of_error hnext]
        refine ⟨fun ts hts => (nomatch hts), fun e he => ?_⟩
        cases he
        exact herror _ rfl
      | ok t =>
        have ht := htoken t rfl
        by_cases hk : t.kind = .endOfInput
        · rw [tokens_of_end hnext hk]
          refine ⟨fun ts hts => ?_, fun e he => (nomatch he)⟩
          cases hts
          simpa using ht
        · have hlt := length_next_lt hnext hk
          obtain ⟨hok, hfail⟩ := @ih d.rest.length (by omega) d hd rfl
          rw [tokens_of_token hnext hk]
          cases hus : d.tokens with
          | error e =>
            refine ⟨fun ts hts => (nomatch hts), fun x hx => ?_⟩
            cases hx
            exact hfail _ hus
          | ok us =>
            refine ⟨fun ts hts => ?_, fun e he => (nomatch he)⟩
            cases hts
            simpa [ht] using hok us hus

end RuleFormula.Cursor
