import RuleFormula.Proofs.Grammar.Following
import RuleFormula.Proofs.Grammar.Message
import RuleFormula.Proofs.Grammar.Stream

set_option autoImplicit false

namespace RuleFormula

open Grammar

/-- How many tokens an error tells of, from the one that it points at. A word is no operand unless
the next token makes it a name. -/
def ParseError.Cause.lookahead : ParseError.Cause → Nat
  | keyword _ => 2
  | _ => 1

namespace TokenStream

theorem exists_taken (used : List Token) (limit : Nat) (fault : Fault) (rest : List Token)
    (ending : Token) : ∃ taken, used ++ fault.site rest = taken ++ rest ∧
      used.length + ((⟨rest, ending⟩ : TokenStream).explain limit fault).cause.lookahead =
        taken.length + 1 := by
  cases fault with
  | keyword word =>
    refine ⟨used ++ [word], by simp [Fault.site], ?_⟩
    simp [explain, ParseError.Cause.lookahead]
  | _ => exact ⟨used, rfl, rfl⟩

theorem Ended.explain_message_iff {s : TokenStream} (hs : s.Ended) {used rest : List Token}
    {fault : Fault} (limit : Nat) (h : s.body = used ++ fault.site rest) (hf : fault ≠ .tooDeep)
    (fits : fault.Fits rest) : "Unexpected end of input".toList <+:
        ((⟨rest, s.ending⟩ : TokenStream).explain limit fault).message.toList ↔
      ((fault.site rest).head?.getD s.ending).kind = .endOfInput := by
  rw [hs.kind_head_iff h, ParseError.message, ParseError.Cause.message_unexpected_end_iff]
  cases fault with
  | expected what => simp [explain, Fault.site]
  | trailing found =>
    have hfound : rest.head? = some found := fits
    have hk : found.kind ≠ .endOfInput := by
      refine hs.2 found ?_
      rw [h]
      exact List.mem_append_right used (List.mem_of_mem_head? hfound)
    have hne : rest ≠ [] := by rintro rfl; cases hfound
    simpa [explain, Fault.site, hne] using hk
  | tooDeep => exact absurd rfl hf
  | keyword word => simp [explain, Fault.site]
  | invalidNumber text e =>
    obtain ⟨t, ht, -⟩ := fits
    have hne : rest ≠ [] := by rintro rfl; cases ht
    simpa [explain, Fault.site] using hne
  | invalidBoolean text =>
    obtain ⟨t, ht, -⟩ := fits
    have hne : rest ≠ [] := by rintro rfl; cases ht
    simpa [explain, Fault.site] using hne

theorem readFormula_eq_error_of_prefix {s r : TokenStream} (hs : s.Ended) (hr : r.Ended)
    {limit : Nat} {fault : Fault} {taken rest : List Token} (hf : fault ≠ .tooDeep)
    (hc : complete (Inner.within limit) s.body = .error fault rest) (ht : s.body = taken ++ rest)
    (hp : s.tokens.take (taken.length + 1) <+: r.tokens) :
    (r.readFormula limit).1 = .error ((⟨rest, s.ending⟩ : TokenStream).explain limit fault) := by
  rw [take_tokens_succ ht] at hp
  obtain ⟨more, hbody, hhead, hcurrent⟩ := hs.exists_of_prefix hr ht hp
  obtain ⟨used, hused, hmore⟩ := complete_follows (Nat.le_refl limit) s.body
  rw [hc] at hused hmore
  obtain rfl : taken = used := List.append_cancel_right (ht.symm.trans hused)
  have hx := hmore more hhead
  rw [← hbody] at hx
  refine readFormula_eq_error_iff.2 ⟨fault, more, ?_, explain_congr hhead hcurrent⟩
  generalize complete (Inner.within limit) r.body = o at hx
  cases hx with
  | error => rfl
  | tooDeep => exact absurd rfl hf

end TokenStream

/-- Each error but for want of levels points at the first token behind which nothing is a
formula: the tokens in front of it can be completed, under the same limit, and all token lists
that start with them and it fail with the same error. Only where it is the end of input, the
message says so. -/
theorem parseTokens_error_unviable {ts : List Token} {s : TokenStream}
    (hs : TokenStream.ofTokens ts = .ok s) {limit : Nat} {E : ParseError}
    (hE : parseTokens limit ts = .error E) (hd : ∀ l, E.cause ≠ .tooDeep l) :
    ∃ i, ∃ hi : i < ts.length, E.location = some ts[i].location ∧
      i + E.cause.lookahead ≤ ts.length ∧
      (∃ c : List Token, (∀ t ∈ c, t.kind ≠ .endOfInput) ∧
        ∀ ending : Token, ending.kind = .endOfInput →
          ∃ e, parseTokens limit (ts.take i ++ c ++ [ending]) = .ok e) ∧
      (∀ us r, TokenStream.ofTokens us = .ok r → ts.take (i + E.cause.lookahead) <+: us →
        parseTokens limit us = .error E) ∧
      ("Unexpected end of input".toList <+: E.message.toList ↔ ts[i].kind = .endOfInput) := by
  obtain ⟨rfl, hend⟩ := TokenStream.ofTokens_eq_ok_iff.1 hs
  rw [hend.parseTokens_eq] at hE
  obtain ⟨fault, rest, hc, rfl⟩ := TokenStream.readFormula_eq_error_iff.1 hE
  have hf : fault ≠ .tooDeep := by
    rintro rfl
    exact hd limit rfl
  cases complete_fails limit s.body fault rest hc with
  | tooDeep => exact absurd rfl hf
  | @stuck _ _ filler e used hbody _ fits fills h =>
    obtain ⟨hi, hget⟩ := List.getElem?_eq_some_iff.1 (TokenStream.getElem?_tokens hbody)
    -- A word is taken before it is reported, so that reading has gone one token further.
    obtain ⟨taken, htaken, hlook⟩ := TokenStream.exists_taken used limit fault rest s.ending
    have hbody' : s.body = taken ++ rest := hbody.trans htaken
    refine ⟨used.length, hi, ?_, ?_, ⟨filler, fills.ne_endOfInput, fun ending hk => ⟨e, ?_⟩⟩,
      fun us r hr hp => ?_, ?_⟩
    · rw [hget]
      exact TokenStream.explain_location limit fault rest s.ending
    · rw [hlook, TokenStream.length_tokens, hbody', List.length_append]
      omega
    · rw [TokenStream.take_tokens hbody, parseTokens_append limit hk ?_]
      · exact TokenStream.readFormula_eq_ok_iff.2 h
      · intro t ht
        rcases List.mem_append.1 ht with hu | hu
        · exact hend.2 t (by rw [hbody]; exact List.mem_append_left _ hu)
        · exact fills.ne_endOfInput t hu
    · obtain ⟨rfl, hr'⟩ := TokenStream.ofTokens_eq_ok_iff.1 hr
      rw [hlook] at hp
      rw [hr'.parseTokens_eq]
      exact TokenStream.readFormula_eq_error_of_prefix hend hr' hf hc hbody' hp
    · rw [hget]
      exact hend.explain_message_iff limit hbody hf fits

theorem parseTokens_sum_not_two :
    parseTokens 3
      [⟨.number, "1", ⟨0, 1, 1⟩⟩, ⟨.plus, "+", ⟨2, 1, 3⟩⟩, ⟨.identifier, "not", ⟨4, 1, 5⟩⟩,
        ⟨.number, "2", ⟨8, 1, 9⟩⟩, .atEnd ⟨9, 1, 10⟩] = .error ⟨.keyword "not", some ⟨4, 1, 5⟩⟩ ∧
    ∀ us r, TokenStream.ofTokens us = .ok r →
      [⟨.number, "1", ⟨0, 1, 1⟩⟩, ⟨.plus, "+", ⟨2, 1, 3⟩⟩, ⟨.identifier, "not", ⟨4, 1, 5⟩⟩,
        ⟨.number, "2", ⟨8, 1, 9⟩⟩] <+: us →
      parseTokens 3 us = .error ⟨.keyword "not", some ⟨4, 1, 5⟩⟩ := by
  have hE : parseTokens 3
      [⟨.number, "1", ⟨0, 1, 1⟩⟩, ⟨.plus, "+", ⟨2, 1, 3⟩⟩, ⟨.identifier, "not", ⟨4, 1, 5⟩⟩,
        ⟨.number, "2", ⟨8, 1, 9⟩⟩, .atEnd ⟨9, 1, 10⟩] =
      .error ⟨.keyword "not", some ⟨4, 1, 5⟩⟩ := rfl
  refine ⟨hE, ?_⟩
  obtain ⟨i, hi, hloc, -, -, hagain, -⟩ :=
    parseTokens_error_unviable (s := ⟨_, .atEnd ⟨9, 1, 10⟩⟩) rfl hE (by simp)
  have h2 : i = 2 := by
    match i, hi, hloc with
    | 2, _, _ => rfl
    | 3, _, h | 4, _, h => cases h
    | n + 5, hi, _ => exact absurd (Nat.le_add_left 5 n) (Nat.not_le_of_lt hi)
  subst h2
  exact hagain

end RuleFormula
