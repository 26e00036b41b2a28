import RuleFormula.Grammar.Expression
import RuleFormula.Proofs.Grammar.Phrase

set_option autoImplicit false

namespace RuleFormula.Grammar

namespace Outcome

variable {α β γ : Type}

theorem map_map (o : Outcome α) (f : α → β) (g : β → γ) :
    (o.map f).map g = o.map fun a => g (f a) := by
  cases o <;> rfl

theorem map_self (o : Outcome α) : (o.map fun a => a) = o := by
  cases o <;> rfl

theorem map_andThen (o : Outcome α) (f : α → Reader β) (g : β → γ) :
    (o.andThen f).map g = o.andThen fun a ts => (f a ts).map g := by
  cases o <;> rfl

end Outcome

theorem extend_within_succ {tier : Tier} {t : Token} {op : BinaryOp} (levels : Nat) (left : Expr)
    (ts : List Token) (ho : tier.operator? t = some op) :
    extend (Inner.within (levels + 1)) tier left (t :: ts) =
      (tier.tighter.reader (Inner.within levels) ts).andThen fun right =>
        extend (Inner.within levels) tier (.binary op left right t.location.offset) := by
  rw [extend, ho]
  rfl

theorem extend_within_zero {tier : Tier} {t : Token} {op : BinaryOp} (left : Expr) (ts : List Token)
    (ho : tier.operator? t = some op) :
    extend (Inner.within 0) tier left (t :: ts) = .error .tooDeep (t :: ts) := by
  rw [extend, ho]
  rfl

theorem Chains.tighter_eq {tier next : Tier} (rule : Chains tier next) : tier.tighter = next := by
  cases rule <;> rfl

theorem Chains.reader_eq {tier next : Tier} (rule : Chains tier next) (inner : Option Inner) :
    tier.reader inner = chain inner tier (next.reader inner) := by
  cases rule <;> rfl

theorem expect_eq_ok {kind : Token.Kind} {what : Expectation} {ts rest : List Token} {t : Token}
    (h : expect kind what ts = .ok t rest) : ts = t :: rest ∧ t.kind = kind := by
  unfold expect at h
  split at h
  · cases h
  · split at h
    next hk => cases h; exact ⟨rfl, hk⟩
    next => cases h

theorem expect_eq_error {kind : Token.Kind} {what : Expectation} {ts rest : List Token}
    {fault : Fault} (h : expect kind what ts = .error fault rest) :
    fault = .expected what ∧ rest = ts := by
  unfold expect at h
  split at h
  · cases h; exact ⟨rfl, rfl⟩
  · split at h
    next => cases h
    next => cases h; exact ⟨rfl, rfl⟩

theorem segments_of_dot {t : Token} (h : t.kind = .dot) (ts : List Token) :
    segments (t :: ts) = (expect .identifier .fieldName ts).andThen fun name rest =>
      (segments rest).map (name.text :: ·) := by
  rw [segments.eq_def]
  simp only [h, if_true]
  cases ts with
  | nil => rfl
  | cons u us =>
    unfold expect
    dsimp only
    split <;> rfl

theorem segments_of_ne_dot {t : Token} (h : t.kind ≠ .dot) (ts : List Token) :
    segments (t :: ts) = .ok [] (t :: ts) := by
  rw [segments.eq_def]
  simp only [h, if_false]

end RuleFormula.Grammar
