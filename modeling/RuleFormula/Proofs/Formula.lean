import RuleFormula.Formula
import RuleFormula.Proofs.Grammar.Language
import RuleFormula.Proofs.Token.Reads

set_option autoImplicit false

namespace RuleFormula

open Grammar

section Except

variable {ε δ α β : Type}

theorem mapError_eq_ok {x : Except ε α} {f : ε → δ} {a : α} :
    x.mapError f = .ok a ↔ x = .ok a := by
  cases x <;> constructor <;> intro h <;> cases h <;> rfl

theorem exists_ok_of_map {x : Except ε α} {f : α → β} {b : β} (h : x.toOption.map f = some b) :
    ∃ a, x = .ok a ∧ f a = b := by
  cases x with
  | error e => cases h
  | ok a => exact ⟨a, rfl, Option.some.inj h⟩

end Except

theorem parseFormula_eq_ok_iff {limit : Nat} {s : String} {e : Expr} :
    parseFormula limit s = .ok e ↔ ∃ ts, tokenize s = .ok ts ∧ parseTokens limit ts = .ok e := by
  unfold parseFormula
  cases tokenize s with
  | error x =>
    change (Except.error (FormulaError.lex x) : Except FormulaError Expr) = .ok e ↔ _
    simp
  | ok ts =>
    change (parseTokens limit ts).mapError FormulaError.parse = .ok e ↔ _
    simp [mapError_eq_ok]

theorem Reads.parseFormula {s : String} {ts : List (Token.Kind × String)} (h : Reads s.toList ts) :
    ∃ stream : TokenStream, stream.body.map Token.spelling = ts ∧
      ∀ limit, parseFormula limit s = (stream.readFormula limit).1.mapError .parse := by
  obtain ⟨body, ending, hts, hb, hne, he⟩ := h.tokens .start
  refine ⟨⟨body, ending⟩, hb, fun limit => ?_⟩
  rw [← parseTokens_append limit he hne]
  simp only [RuleFormula.parseFormula, tokenize, Cursor.ofSource, hts]
  rfl

/-- An accepted source is read as tokens, and its tree is derived from them. -/
theorem exists_phrase_of_parseFormula {limit : Nat} {s : String} {e : Expr}
    (h : parseFormula limit s = .ok e) : ∃ body, ∃ p : Phrase .or body e,
      p.levels < limit ∧ Reads s.toList (body.map Token.spelling) := by
  obtain ⟨us, ht, hp⟩ := parseFormula_eq_ok_iff.1 h
  obtain ⟨body, ending, rfl, hr, hne, he⟩ := Reads.of_tokens ht
  rw [parseTokens_append limit he hne] at hp
  obtain ⟨p, hl⟩ := TokenStream.readFormula_eq_ok_iff.1 hp
  exact ⟨body, p, hl, hr⟩

end RuleFormula
