import RuleFormula.Grammar.Error

set_option autoImplicit false

namespace RuleFormula

theorem Token.exists_toText_eq {t : Token} (h : t.kind ≠ .endOfInput) :
    ∃ c cs, t.toText.toList = c :: cs ∧ c ≠ 'e' := by
  cases hk : t.kind with
  | endOfInput => exact absurd hk h
  | _ => simp [toText, hk, Kind.describe, String.toList_append]

namespace ParseError.Cause

theorem prefix_toList_append {start : List Char} {a : String} (h : start <+: a.toList)
    (b : String) :
    start <+: (a ++ b).toList := by
  rw [String.toList_append]
  exact h.trans (List.prefix_append a.toList b.toList)

theorem not_prefix_of_start {c : Char} {message : List Char} (hm : [c] <+: message) (hc : c ≠ 'U') :
    ¬ "Unexpected end of input".toList <+: message := by
  have hU : ['U'] <+: "Unexpected end of input".toList := by decide
  intro hp
  have heq := (List.prefix_of_prefix_length_le hm (hU.trans hp) (Nat.le_refl 1)).eq_of_length rfl
  exact hc (List.cons.inj heq).1

theorem trailing_message_iff (t : Token) :
    "Unexpected end of input".toList <+: (trailing t).message.toList ↔ t.kind = .endOfInput := by
  have hs : "Unexpected end of input".toList = "Unexpected ".toList ++ "end of input".toList := by
    decide
  have hm : (trailing t).message.toList =
      "Unexpected ".toList ++ (t.toText.toList ++ " after complete expression".toList) :=
    calc (trailing t).message.toList
      _ = ("Unexpected " ++ t.toText).toList ++ " after complete expression".toList :=
        String.toList_append
      _ = "Unexpected ".toList ++ t.toText.toList ++ " after complete expression".toList :=
        congrArg (· ++ _) String.toList_append
      _ = _ := List.append_assoc ..
  rw [hs, hm, List.prefix_append_right_inj]
  constructor
  · intro hp
    refine Decidable.byContradiction fun hk => ?_
    obtain ⟨c, cs, ht, hc⟩ := Token.exists_toText_eq hk
    obtain ⟨rest, hr⟩ := hp
    rw [ht] at hr
    have he : 'e' = c := (List.cons.inj hr).1
    exact hc he.symm
  · intro hk
    have ht : t.toText = "end of input" := by simp only [Token.toText, hk]
    rw [ht]
    exact List.prefix_append _ _

/-- Only where the tokens end, the message says so. -/
theorem message_unexpected_end_iff (c : Cause) :
    "Unexpected end of input".toList <+: c.message.toList ↔
      (∃ wanted, c = unexpected wanted none) ∨ ∃ t, c = trailing t ∧ t.kind = .endOfInput := by
  cases c with
  | unexpected wanted found =>
    cases found with
    | none =>
      have hm : "Unexpected end of input".toList <+: (unexpected wanted none).message.toList :=
        prefix_toList_append (by decide) wanted.describe
      simpa using hm
    | some t =>
      have hm : ['E'] <+: (unexpected wanted (some t)).message.toList :=
        prefix_toList_append (prefix_toList_append (prefix_toList_append (by decide) _) _) _
      simpa using not_prefix_of_start hm (by decide)
  | trailing t => simpa using trailing_message_iff t
  | tooDeep limit =>
    have hm : ['E'] <+: (tooDeep limit).message.toList :=
      prefix_toList_append (prefix_toList_append (by decide) _) _
    simpa using not_prefix_of_start hm (by decide)
  | keyword text =>
    have hm : ['E'] <+: (keyword text).message.toList :=
      prefix_toList_append (prefix_toList_append (by decide) _) _
    simpa using not_prefix_of_start hm (by decide)
  | invalidNumber text fault =>
    have hm : ['I'] <+: (invalidNumber text fault).message.toList :=
      prefix_toList_append (prefix_toList_append (prefix_toList_append (by decide) _) _) _
    simpa using not_prefix_of_start hm (by decide)
  | invalidBoolean text =>
    have hm : ['I'] <+: (invalidBoolean text).message.toList :=
      prefix_toList_append (prefix_toList_append (by decide) _) _
    simpa using not_prefix_of_start hm (by decide)
  | noTokens =>
    have hm : ['T'] <+: noTokens.message.toList := by decide
    simpa using not_prefix_of_start hm (by decide)
  | noEnd =>
    have hm : ['T'] <+: noEnd.message.toList := by decide
    simpa using not_prefix_of_start hm (by decide)
  | earlyEnd =>
    have hm : ['E'] <+: earlyEnd.message.toList := by decide
    simpa using not_prefix_of_start hm (by decide)

end ParseError.Cause

end RuleFormula
