import Mathlib.Data.Nat.Find
import RuleFormula.Proofs.Grammar.Following
import RuleFormula.Proofs.Grammar.Stream

set_option autoImplicit false

namespace RuleFormula

open Grammar

/-- Reading ends for want of levels in front of a token. -/
def CutAt (limit : Nat) (ts : List Token) (i : Nat) : Prop :=
  ∃ hi : i < ts.length, parseTokens limit ts = .error ⟨.tooDeep limit, some ts[i].location⟩

/-- Reading gets as far as a token, or succeeds. -/
def Reaches (limit : Nat) (ts : List Token) (i : Nat) : Prop :=
  (∃ e, parseTokens limit ts = .ok e) ∨ ∃ j, ∃ hj : j < ts.length, i ≤ j ∧
    ∃ cause, parseTokens limit ts = .error ⟨cause, some ts[j].location⟩

def IsTooDeep (r : Except ParseError Expr) : Prop := ∃ l place, r = .error ⟨.tooDeep l, place⟩

theorem CutAt.isTooDeep {limit : Nat} {ts : List Token} {i : Nat} (h : CutAt limit ts i) :
    IsTooDeep (parseTokens limit ts) :=
  let ⟨_, h⟩ := h
  ⟨_, _, h⟩

namespace TokenStream

variable {s : TokenStream}

theorem explain_of_ne_tooDeep {fault : Fault} (h : fault ≠ .tooDeep) (limit more : Nat) :
    s.explain limit fault = s.explain more fault := by
  cases fault with
  | tooDeep => exact absurd rfl h
  | _ => rfl

theorem Ended.parseTokens_mono (hs : s.Ended) {limit more : Nat} (h : limit ≤ more) :
    parseTokens limit s.tokens = parseTokens more s.tokens ∨
      ∃ i, CutAt limit s.tokens i ∧ Reaches more s.tokens i := by
  obtain ⟨used, hbody, hmore⟩ := complete_follows h s.body
  have hc := hmore _ rfl
  rw [← hbody] at hc
  rw [hs.parseTokens_eq, hs.parseTokens_eq]
  generalize hlimit : complete (Inner.within limit) s.body = o at hbody hc
  generalize hfull : complete (Inner.within more) s.body = o' at hc
  cases hc with
  | ok => exact .inl (by simp only [readFormula, run, hlimit, hfull])
  | error hf =>
    refine .inl ?_
    simp only [readFormula, run, hlimit, hfull, explain_of_ne_tooDeep hf limit more]
    rfl
  | tooDeep hsite =>
    refine .inr ⟨used.length, hs.parseTokens_eq_error hlimit hbody, ?_⟩
    cases o' with
    | ok e rest => exact .inl ⟨e, by rw [hs.parseTokens_eq]; exact run_eq_ok_iff.2 ⟨rest, hfull⟩⟩
    | error fault rest =>
      obtain ⟨between, hb⟩ := hsite
      have hbody' : s.body = (used ++ between) ++ fault.site rest := by
        rw [List.append_assoc, hbody, ← hb]
        rfl
      obtain ⟨hj, he⟩ := hs.parseTokens_eq_error hfull hbody'
      exact .inr ⟨_, hj, by simp, _, he⟩

theorem Ended.not_isTooDeep (hs : s.Ended) {limit : Nat} (h : s.tokens.length ≤ limit) :
    ¬ IsTooDeep (parseTokens limit s.tokens) := by
  intro hdeep
  obtain ⟨l, place, he⟩ := hdeep
  rw [hs.parseTokens_eq] at he
  obtain ⟨fault, rest, hc, hx⟩ := readFormula_eq_error_iff.1 he
  cases complete_fails limit s.body fault rest hc with
  | tooDeep used hbody hle =>
    rw [length_tokens, hbody, List.length_append] at h
    omega
  | stuck used _ hf => cases fault <;> simp [explain] at hx hf

end TokenStream

/-- Under a limit, a token list gives what it gives under all higher ones, or it is cut short, and
goes at least as far under those. As many levels as tokens are never exceeded; so there is a limit
from which on nothing changes, and under which all is cut short. No level at all is none for the
first token. -/
theorem parseTokens_limit {ts : List Token} {s : TokenStream}
    (hs : TokenStream.ofTokens ts = .ok s) :
    (∀ limit more, limit ≤ more → parseTokens limit ts = parseTokens more ts ∨
      ∃ i, CutAt limit ts i ∧ Reaches more ts i) ∧
    (∀ limit, ts.length ≤ limit → ¬ IsTooDeep (parseTokens limit ts)) ∧
    (∃ enough ≤ ts.length,
      (∀ limit, enough ≤ limit →
        parseTokens limit ts = parseTokens enough ts ∧ ¬ IsTooDeep (parseTokens limit ts)) ∧
      ∀ limit < enough, ∃ i, CutAt limit ts i) ∧
    CutAt 0 ts 0 := by
  obtain ⟨rfl, hend⟩ := TokenStream.ofTokens_eq_ok_iff.1 hs
  refine ⟨fun limit more => hend.parseTokens_mono, fun limit => hend.not_isTooDeep, ?_, ?_⟩
  · classical
    have hex : ∃ limit, ¬ IsTooDeep (parseTokens limit s.tokens) :=
      ⟨_, hend.not_isTooDeep (Nat.le_refl _)⟩
    -- The least limit that is not too deep: by monotony all higher ones give the same.
    refine ⟨Nat.find hex, Nat.find_min' hex (hend.not_isTooDeep (Nat.le_refl _)), ?_, ?_⟩
    · intro limit hle
      have heq : parseTokens (Nat.find hex) s.tokens = parseTokens limit s.tokens := by
        rcases hend.parseTokens_mono hle with heq | ⟨i, hcut, -⟩
        · exact heq
        · exact absurd hcut.isTooDeep (Nat.find_spec hex)
      exact ⟨heq.symm, heq ▸ Nat.find_spec hex⟩
    · intro limit hlt
      have hdeep : IsTooDeep (parseTokens limit s.tokens) :=
        Decidable.not_not.1 (Nat.find_min hex hlt)
      rcases hend.parseTokens_mono (Nat.le_of_lt hlt) with heq | ⟨i, hcut, -⟩
      · exact absurd (heq ▸ hdeep) (Nat.find_spec hex)
      · exact ⟨i, hcut⟩
  · have hc : complete (Inner.within 0) s.body = .error .tooDeep s.body := rfl
    exact hend.parseTokens_eq_error hc (List.nil_append s.body).symm

theorem parseTokens_limit_sum_paren :
    ∃ i,
      CutAt 1 [⟨.number, "1", ⟨0, 1, 1⟩⟩, ⟨.plus, "+", ⟨2, 1, 3⟩⟩, ⟨.rightParen, ")", ⟨4, 1, 5⟩⟩,
        .atEnd ⟨5, 1, 6⟩] i ∧
      Reaches 2 [⟨.number, "1", ⟨0, 1, 1⟩⟩, ⟨.plus, "+", ⟨2, 1, 3⟩⟩, ⟨.rightParen, ")", ⟨4, 1, 5⟩⟩,
        .atEnd ⟨5, 1, 6⟩] i := by
  have hs : TokenStream.ofTokens [⟨.number, "1", ⟨0, 1, 1⟩⟩, ⟨.plus, "+", ⟨2, 1, 3⟩⟩,
      ⟨.rightParen, ")", ⟨4, 1, 5⟩⟩, .atEnd ⟨5, 1, 6⟩] =
    .ok ⟨[⟨.number, "1", ⟨0, 1, 1⟩⟩, ⟨.plus, "+", ⟨2, 1, 3⟩⟩, ⟨.rightParen, ")", ⟨4, 1, 5⟩⟩],
      .atEnd ⟨5, 1, 6⟩⟩ := rfl
  obtain ⟨hmono, -⟩ := parseTokens_limit hs
  rcases hmono 1 2 (by decide) with heq | hcut
  · cases heq
  · exact hcut

end RuleFormula
