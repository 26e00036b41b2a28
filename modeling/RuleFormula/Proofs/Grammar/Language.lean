import RuleFormula.Grammar.Stream
import RuleFormula.Proofs.Grammar.Derivation
import RuleFormula.Proofs.Grammar.Reading

set_option autoImplicit false

namespace RuleFormula

open Grammar

theorem Grammar.expression_costs {ts : List Token} {e : Expr} (p : Phrase .or ts e) (limit : Nat)
    {rest : List Token} (h : Tier.or.Stops rest) :
    Outcome.Costs (expression (Inner.within limit) (ts ++ rest)) (p.levels + 1) limit e rest :=
  .enter limit fun l => p.costs l rest h

theorem Grammar.expression_takes (limit : Nat) :
    Takes (fun ts e => ∃ p : Phrase .or ts e, p.levels < limit)
      (expression (Inner.within limit)) :=
  enter_takes (fun l _ => sound l) .or

theorem Grammar.complete_eq_ok_iff {limit : Nat} {ts rest : List Token} {e : Expr} :
    complete (Inner.within limit) ts = .ok e rest ↔
      rest = [] ∧ ∃ p : Phrase .or ts e, p.levels < limit := by
  constructor
  · intro h
    obtain ⟨x, us, hx, hr⟩ := Outcome.andThen_eq_ok.1 h
    split at hr
    · cases hr
      obtain ⟨used, rfl, p⟩ := expression_takes limit ts e [] hx
      rw [List.append_nil]
      exact ⟨rfl, p⟩
    · cases hr
  · intro hx
    obtain ⟨rfl, p, hp⟩ := hx
    have hx := (expression_costs p limit (.nil .or)).1 hp
    rw [List.append_nil] at hx
    exact Outcome.andThen_eq_ok.2 ⟨e, [], hx, rfl⟩

namespace TokenStream

theorem run_eq_ok_iff {s : TokenStream} {limit : Nat} {reader : Option Inner → Reader Expr}
    {e : Expr} : (s.run limit reader).1 = .ok e ↔
      ∃ rest, reader (Inner.within limit) s.body = .ok e rest := by
  unfold run
  cases reader (Inner.within limit) s.body <;> simp

theorem run_of_tooDeep {s : TokenStream} {limit : Nat} {reader : Option Inner → Reader Expr}
    {rest : List Token} (h : reader (Inner.within limit) s.body = .error .tooDeep rest) :
    ∃ l, (s.run limit reader).1 = .error ⟨.tooDeep limit, some l⟩ := by
  simp only [run, h]
  exact ⟨_, rfl⟩

/-- A formula is read if its derivation has a level to spare, the one that every
expression takes. -/
theorem readFormula_eq_ok_iff {s : TokenStream} {limit : Nat} {e : Expr} :
    (s.readFormula limit).1 = .ok e ↔ ∃ p : Phrase .or s.body e, p.levels < limit := by
  simp only [readFormula, run_eq_ok_iff, complete_eq_ok_iff, exists_eq_left]

theorem readExpression_eq_ok {s : TokenStream} {limit : Nat} {e : Expr}
    (h : (s.readExpression limit).1 = .ok e) :
    ∃ ts, ∃ p : Phrase .or ts e, p.levels < limit := by
  obtain ⟨rest, hr⟩ := run_eq_ok_iff.1 h
  obtain ⟨used, -, p⟩ := expression_takes limit s.body e rest hr
  exact ⟨used, p⟩

theorem readFormula_of_levels_ge {s : TokenStream} {limit : Nat} {e : Expr}
    (p : Phrase .or s.body e) (h : limit ≤ p.levels) :
    ∃ l, (s.readFormula limit).1 = .error ⟨.tooDeep limit, some l⟩ := by
  obtain ⟨left, hx⟩ := (expression_costs p limit (.nil .or)).2 (Nat.lt_succ_of_le h)
  rw [List.append_nil] at hx
  exact run_of_tooDeep (Outcome.andThen_eq_error.2 (.inl hx))

theorem ofTokens_append {body : List Token} {ending : Token} (he : ending.kind = .endOfInput)
    (hb : ∀ t ∈ body, t.kind ≠ .endOfInput) : ofTokens (body ++ [ending]) = .ok ⟨body, ending⟩ := by
  have hf : body.find? (fun t => t.kind = .endOfInput) = none := by
    simpa using hb
  simp [ofTokens, he, hf]

end TokenStream

theorem parseTokens_append {body : List Token} {ending : Token} (limit : Nat)
    (he : ending.kind = .endOfInput) (hb : ∀ t ∈ body, t.kind ≠ .endOfInput) :
    parseTokens limit (body ++ [ending]) =
      ((⟨body, ending⟩ : TokenStream).readFormula limit).1 := by
  simp only [parseTokens, TokenStream.ofTokens_append he hb]
  rfl

/-- The formulas of the grammar, and nothing else, are accepted, each with the tree of its
derivation. A limit of the number of tokens is never reached. -/
theorem parseTokens_eq_ok_iff_derives (body : List Token) (ending : Token)
    (he : ending.kind = .endOfInput) (hb : ∀ t ∈ body, t.kind ≠ .endOfInput) (limit : Nat)
    (hl : (body ++ [ending]).length ≤ limit) (e : Expr) :
    parseTokens limit (body ++ [ending]) = .ok e ↔ Derives body e := by
  rw [parseTokens_append limit he hb, TokenStream.readFormula_eq_ok_iff]
  constructor
  · intro hx
    obtain ⟨p, -⟩ := hx
    exact ⟨p⟩
  · intro hx
    obtain ⟨p⟩ := hx
    have hp := p.levels_le
    simp only [List.length_append, List.length_singleton] at hl
    exact ⟨p, by omega⟩

theorem derives_not_minus_power :
    Derives
      [⟨.identifier, "not", ⟨0, 1, 1⟩⟩, ⟨.minus, "-", ⟨4, 1, 5⟩⟩, ⟨.identifier, "x", ⟨5, 1, 6⟩⟩,
        ⟨.caret, "^", ⟨6, 1, 7⟩⟩, ⟨.number, "2", ⟨7, 1, 8⟩⟩]
      (.unary .not
        (.binary .power (.unary .negate (.field ["x"] 5) 4)
          (.literal (.number ⟨2, 0, by decide, by decide⟩) 7) 6) 0) := by
  have h := parseTokens_eq_ok_iff_derives
    [⟨.identifier, "not", ⟨0, 1, 1⟩⟩, ⟨.minus, "-", ⟨4, 1, 5⟩⟩, ⟨.identifier, "x", ⟨5, 1, 6⟩⟩,
      ⟨.caret, "^", ⟨6, 1, 7⟩⟩, ⟨.number, "2", ⟨7, 1, 8⟩⟩]
    (.atEnd ⟨8, 1, 9⟩) rfl (by decide) 6 (by decide)
  exact (h _).1 rfl

end RuleFormula
