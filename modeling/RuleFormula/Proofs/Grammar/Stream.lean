import RuleFormula.Proofs.Grammar.Failure
import RuleFormula.Proofs.Grammar.Language

set_option autoImplicit false

namespace RuleFormula

open Grammar

namespace TokenStream

def tokens (s : TokenStream) : List Token := s.body ++ [s.ending]

/-- The end of input stands last and nowhere else. -/
def Ended (s : TokenStream) : Prop :=
  s.ending.kind = .endOfInput ∧ ∀ t ∈ s.body, t.kind ≠ .endOfInput

theorem ofTokens_eq_ok_iff {ts : List Token} {s : TokenStream} :
    ofTokens ts = .ok s ↔ s.tokens = ts ∧ s.Ended := by
  constructor
  · intro h
    unfold ofTokens at h
    split at h
    · cases h
    next last hlast =>
      obtain ⟨front, rfl⟩ := List.getLast?_eq_some_iff.1 hlast
      rw [List.dropLast_concat] at h
      split at h
      · cases h
      next hend =>
        split at h
        · cases h
        next hfind =>
          cases h
          refine ⟨rfl, Decidable.not_not.1 hend, fun t ht => ?_⟩
          simpa using List.find?_eq_none.1 hfind t ht
  · intro h
    obtain ⟨rfl, hend, hbody⟩ := h
    exact ofTokens_append hend hbody

variable {s : TokenStream}

theorem length_tokens (s : TokenStream) : s.tokens.length = s.body.length + 1 := by
  simp [tokens]

theorem getElem?_tokens {used rest : List Token} (h : s.body = used ++ rest) :
    s.tokens[used.length]? = some (rest.head?.getD s.ending) := by
  rw [tokens, h, List.append_assoc, List.getElem?_append_right (Nat.le_refl _), Nat.sub_self]
  cases rest <;> rfl

theorem take_tokens {used rest : List Token} (h : s.body = used ++ rest) :
    s.tokens.take used.length = used := by
  rw [tokens, h, List.append_assoc, List.take_left]

theorem take_tokens_succ {used rest : List Token} (h : s.body = used ++ rest) :
    s.tokens.take (used.length + 1) = used ++ [rest.head?.getD s.ending] := by
  rw [List.take_add_one, take_tokens h, getElem?_tokens h]
  rfl

theorem Ended.kind_head_iff (hs : s.Ended) {used rest : List Token} (h : s.body = used ++ rest) :
    (rest.head?.getD s.ending).kind = .endOfInput ↔ rest = [] := by
  cases rest with
  | nil => simpa using hs.1
  | cons t rest =>
    have ht := hs.2 t (by simp [h])
    simpa using ht

theorem Ended.operator?_ending (hs : s.Ended) (tier : Tier) : tier.operator? s.ending = none := by
  simp only [Tier.operator?, Token.binaryOp?, hs.1, Option.filter_none]

theorem Ended.negates_ending (hs : s.Ended) (t : Token) (ts : List Token) :
    t.negates (some (ts.head?.getD s.ending)) = t.negates ts.head? := by
  cases ts with
  | nil => simp [Token.negates, hs.1]
  | cons u us => rfl

theorem Ended.exists_of_prefix {r : TokenStream} (hs : s.Ended) (hr : r.Ended)
    {used rest : List Token} (h : s.body = used ++ rest)
    (hp : used ++ [rest.head?.getD s.ending] <+: r.tokens) :
    ∃ more, r.body = used ++ more ∧ more.head? = rest.head? ∧
      more.head?.getD r.ending = rest.head?.getD s.ending := by
  obtain ⟨after, ha⟩ := hp
  rw [tokens] at ha
  rcases List.eq_nil_or_concat after with rfl | ⟨after, last, rfl⟩
  · rw [List.append_nil] at ha
    obtain ⟨hbody, hend⟩ := List.append_inj' ha rfl
    rw [List.cons.injEq] at hend
    have hrest := (hs.kind_head_iff h).1 (hend.1 ▸ hr.1)
    subst hrest
    exact ⟨[], by rw [List.append_nil, hbody], rfl, hend.1.symm⟩
  · rw [List.concat_eq_append, ← List.append_assoc] at ha
    obtain ⟨hbody, -⟩ := List.append_inj' ha rfl
    have hk : (rest.head?.getD s.ending).kind ≠ .endOfInput := hr.2 _ (by simp [← hbody])
    cases rest with
    | nil => exact absurd hs.1 hk
    | cons t rest =>
      refine ⟨t :: after, ?_, rfl, rfl⟩
      rw [← hbody, List.append_assoc]
      rfl

theorem explain_location (limit : Nat) (fault : Fault) (rest : List Token) (ending : Token) :
    ((⟨rest, ending⟩ : TokenStream).explain limit fault).location =
      some ((fault.site rest).head?.getD ending).location := by
  cases fault <;> rfl

/-- What is told of a fault depends on the next token only. -/
theorem explain_congr {limit : Nat} {fault : Fault} {r : TokenStream}
    (hh : r.body.head? = s.body.head?) (hc : r.current = s.current) :
    r.explain limit fault = s.explain limit fault := by
  cases fault <;> simp [explain, hh, hc]

theorem readFormula_eq_error_iff {limit : Nat} {E : ParseError} :
    (s.readFormula limit).1 = .error E ↔
      ∃ fault rest, complete (Inner.within limit) s.body = .error fault rest ∧
        (⟨rest, s.ending⟩ : TokenStream).explain limit fault = E := by
  unfold readFormula run
  cases complete (Inner.within limit) s.body with
  | ok e rest => simp
  | error fault rest =>
    simp only [Except.error.injEq, Outcome.error.injEq]
    grind

theorem Ended.parseTokens_eq (hs : s.Ended) (limit : Nat) :
    parseTokens limit s.tokens = (s.readFormula limit).1 :=
  parseTokens_append limit hs.1 hs.2

/-- A fault is reported at the first of its tokens. -/
theorem Ended.parseTokens_eq_error (hs : s.Ended) {limit : Nat} {fault : Fault}
    {used rest : List Token} (h : complete (Inner.within limit) s.body = .error fault rest)
    (hbody : s.body = used ++ fault.site rest) :
    ∃ hi : used.length < s.tokens.length, parseTokens limit s.tokens = .error
      ⟨((⟨rest, s.ending⟩ : TokenStream).explain limit fault).cause,
        some s.tokens[used.length].location⟩ := by
  obtain ⟨hi, hget⟩ := List.getElem?_eq_some_iff.1 (getElem?_tokens hbody)
  refine ⟨hi, ?_⟩
  rw [hs.parseTokens_eq, readFormula_eq_error_iff.2 ⟨fault, rest, h, rfl⟩, hget,
    ← explain_location limit fault rest s.ending]

theorem exists_site {limit : Nat} {fault : Fault} {rest : List Token}
    (h : complete (Inner.within limit) s.body = .error fault rest) :
    ∃ used, s.body = used ++ fault.site rest ∧ fault.Fits rest := by
  cases complete_fails limit s.body fault rest h with
  | tooDeep used hbody _ => exact ⟨used, hbody, trivial⟩
  | stuck used hbody _ fits _ _ => exact ⟨used, hbody, fits⟩

end TokenStream

theorem exists_ended_of_parseTokens {limit : Nat} {ts : List Token} {e : Expr}
    (h : parseTokens limit ts = .ok e) :
    ∃ s : TokenStream, s.tokens = ts ∧ s.Ended ∧ (s.readFormula limit).1 = .ok e := by
  cases hs : TokenStream.ofTokens ts with
  | error E =>
    rw [parseTokens, hs] at h
    cases h
  | ok s =>
    rw [parseTokens, hs] at h
    obtain ⟨hts, hend⟩ := TokenStream.ofTokens_eq_ok_iff.1 hs
    exact ⟨s, hts, hend, h⟩

theorem parseTokens_eq_ok_iff {limit : Nat} {body : List Token} {ending : Token} {e : Expr} :
    parseTokens limit (body ++ [ending]) = .ok e ↔ ending.kind = .endOfInput ∧
      (∀ t ∈ body, t.kind ≠ .endOfInput) ∧ ∃ p : Phrase .or body e, p.levels < limit := by
  constructor
  · intro h
    obtain ⟨s, hs, hend, hread⟩ := exists_ended_of_parseTokens h
    obtain ⟨rfl, hending⟩ := List.append_inj' hs rfl
    cases hending
    exact ⟨hend.1, hend.2, TokenStream.readFormula_eq_ok_iff.1 hread⟩
  · intro hx
    obtain ⟨he, hb, hp⟩ := hx
    rw [parseTokens_append limit he hb]
    exact TokenStream.readFormula_eq_ok_iff.2 hp

end RuleFormula
