import RuleFormula.Proofs.Parser.Agreement

set_option autoImplicit false

namespace RuleFormula

open Grammar

def TokenStream.answer (s : TokenStream) (limit : Nat) :
    Parser.Request → Except ParseError Expr × TokenStream
  | .formula => s.readFormula limit
  | .expression => s.readExpression limit

namespace Parser

/-- How a parser of the tokens stands between two requests. -/
structure Rests (p : Parser) (limit : Nat) (ts : List Token) : Prop where
  tokens : p.tokens = ts
  limit : p.limit = limit
  depth : p.depth = 0
  index : p.index < ts.length

def Request.reader : Request → Option Inner → Reader Expr
  | formula => complete
  | expression => Grammar.expression

section

variable {s : TokenStream} {limit : Nat} {ts : List Token}

theorem parser_rests (s : TokenStream) (limit : Nat) (ts : List Token) :
    (s.parser limit 0 ts).Rests limit s.tokens := by
  refine ⟨rfl, rfl, rfl, ?_⟩
  rw [TokenStream.length_tokens]
  exact Nat.lt_succ_of_le (Nat.sub_le _ _)

theorem drop_index (limit : Nat) (hts : ts <:+ s.body) :
    s.tokens.drop (s.parser limit 0 ts).index = (⟨ts, s.ending⟩ : TokenStream).tokens := by
  obtain ⟨used, hbody⟩ := hts
  rw [TokenStream.parser_eq hbody.symm, TokenStream.tokens, ← hbody, List.append_assoc,
    List.drop_left]
  rfl

theorem ended_of_suffix (hs : s.Ended) (hts : ts <:+ s.body) :
    (⟨ts, s.ending⟩ : TokenStream).Ended :=
  ⟨hs.1, fun t ht => hs.2 t (hts.subset ht)⟩

theorem ofTokens_tokens (hs : s.Ended) :
    Parser.ofTokens limit s.tokens = .ok (s.parser limit 0 s.body) := by
  rw [Parser.ofTokens, TokenStream.ofTokens_eq_ok_iff.2 ⟨rfl, hs⟩, TokenStream.parser, Nat.sub_self]
  rfl

theorem exists_stream_of_ofTokens {start : Parser} (h : Parser.ofTokens limit ts = .ok start) :
    ∃ s : TokenStream, s.Ended ∧ s.tokens = ts ∧ start = s.parser limit 0 s.body := by
  cases hstream : TokenStream.ofTokens ts with
  | error x =>
    rw [Parser.ofTokens, hstream] at h
    cases h
  | ok s =>
    obtain ⟨rfl, hs⟩ := TokenStream.ofTokens_eq_ok_iff.1 hstream
    rw [ofTokens_tokens hs] at h
    cases h
    exact ⟨s, hs, rfl, rfl⟩

theorem Request.length_rest_lt (request : Request) {e : Expr}
    (h : s.reply limit (request.reader (Inner.within limit) ts) = .ok e) :
    (request.reader (Inner.within limit) ts).rest.length < ts.length := by
  have taken {used : List Token} {e : Expr} (p : Phrase .or used e) : 0 < used.length := by
    obtain ⟨t, us, rfl, -⟩ := p.head
    exact Nat.succ_pos us.length
  cases ho : request.reader (Inner.within limit) ts with
  | error fault rest =>
    rw [ho] at h
    cases h
  | ok e rest =>
    cases request with
    | formula =>
      obtain ⟨rfl, p, -⟩ := complete_eq_ok_iff.1 ho
      exact taken p
    | expression =>
      obtain ⟨used, rfl, p, -⟩ := expression_takes limit ts e rest ho
      have hused := taken p
      rw [List.length_append, Outcome.rest]
      omega

theorem answer_eq (limit : Nat) (hs : s.Ended) (hts : ts <:+ s.body) (request : Request) :
    (s.parser limit 0 ts).answer request =
        some (s.reply limit (request.reader (Inner.within limit) ts),
          s.parser limit 0 (request.reader (Inner.within limit) ts).rest) ∧
      (request.reader (Inner.within limit) ts).rest <:+ ts := by
  cases request with
  | formula => exact formula_gives hs ts hts
  | expression => exact expression_gives hs ts hts

theorem after_eq (limit : Nat) (hs : s.Ended) (hts : ts <:+ s.body) (requests : List Request) :
    ∃ us, us <:+ ts ∧ (s.parser limit 0 ts).after requests = some (s.parser limit 0 us) := by
  -- Each request leaves a parser of the same stream, in front of fewer tokens or as many.
  induction requests generalizing ts with
  | nil => exact ⟨ts, List.suffix_refl ts, rfl⟩
  | cons request requests ih =>
    obtain ⟨hanswer, hrest⟩ := answer_eq limit hs hts request
    obtain ⟨us, hus, hafter⟩ := ih (hrest.trans hts)
    refine ⟨us, hus.trans hrest, ?_⟩
    rw [after, hanswer, Option.bind_some, hafter]

theorem answer_left (s : TokenStream) (limit : Nat) (ts : List Token) (request : Request) :
    (⟨ts, s.ending⟩ : TokenStream).answer limit request =
      (s.reply limit (request.reader (Inner.within limit) ts),
        ⟨(request.reader (Inner.within limit) ts).rest, s.ending⟩) := by
  cases request with
  | formula =>
    rw [TokenStream.answer, TokenStream.readFormula, TokenStream.run, Request.reader]
    cases complete (Inner.within limit) ts <;> rfl
  | expression =>
    rw [TokenStream.answer, TokenStream.readExpression, TokenStream.run, Request.reader]
    cases Grammar.expression (Inner.within limit) ts <;> rfl

theorem reply_left (s : TokenStream) (limit : Nat) (ts : List Token) (o : Outcome Expr) :
    (⟨ts, s.ending⟩ : TokenStream).reply limit o = s.reply limit o := by
  cases o <;> rfl

end

/-- After any requests, a parser of the tokens rests on one of them, with its tokens and its limit
as they were. Its next answer goes on from there and takes a token at least if it is no error. It is
the answer of a new parser on the tokens that are left, and what is read off their stream. -/
theorem answers_afresh {limit : Nat} {ts : List Token} {start : Parser}
    (h : Parser.ofTokens limit ts = .ok start) (requests : List Request) :
    ∃ p, start.after requests = some p ∧ p.Rests limit ts ∧ ∀ request, ∃ r q,
      p.answer request = some (r, q) ∧ q.Rests limit ts ∧
      p.index ≤ q.index ∧ (∀ e, r = .ok e → p.index < q.index) ∧
      (∃ fresh left, Parser.ofTokens limit (ts.drop p.index) = .ok fresh ∧
        fresh.answer request = some (r, left)) ∧
      ∃ stream left, TokenStream.ofTokens (ts.drop p.index) = .ok stream ∧
        stream.answer limit request = (r, left) ∧ left.tokens = ts.drop q.index := by
  obtain ⟨s, hs, rfl, rfl⟩ := exists_stream_of_ofTokens h
  obtain ⟨us, hus, hafter⟩ := after_eq limit hs (List.suffix_refl s.body) requests
  refine ⟨_, hafter, parser_rests s limit us, fun request => ?_⟩
  obtain ⟨hanswer, hrest⟩ := answer_eq limit hs hus request
  have hleft := ended_of_suffix hs hus
  obtain ⟨hfresh, -⟩ := answer_eq limit hleft (List.suffix_refl us) request
  rw [reply_left] at hfresh
  have hread := answer_left s limit us request
  have hdrop := drop_index limit (hrest.trans hus)
  rw [drop_index limit hus]
  refine ⟨_, _, hanswer, parser_rests s limit _, Nat.sub_le_sub_left hrest.length_le _,
    fun e he => ?_, ⟨_, _, ofTokens_tokens hleft, hfresh⟩,
    _, _, TokenStream.ofTokens_eq_ok_iff.2 ⟨rfl, hleft⟩, hread, hdrop.symm⟩
  have hlt := request.length_rest_lt he
  exact Nat.sub_lt_sub_left (Nat.lt_of_lt_of_le hlt hus.length_le) hlt

theorem answers_afresh_sum_and : ∃ start p q,
    ofTokens 2 [⟨.number, "1", ⟨0, 1, 1⟩⟩, ⟨.plus, "+", ⟨2, 1, 3⟩⟩, ⟨.identifier, "and", ⟨4, 1, 5⟩⟩,
      ⟨.identifier, "x", ⟨8, 1, 9⟩⟩, .atEnd ⟨9, 1, 10⟩] = .ok start ∧
    start.answer .formula = some (.error ⟨.keyword "and", some ⟨4, 1, 5⟩⟩, p) ∧
    p.index = 3 ∧ p.depth = 0 ∧ p.answer .formula = some (.ok (.field ["x"] 8), q) := by
  obtain ⟨start, h⟩ : ∃ start, ofTokens 2 [⟨.number, "1", ⟨0, 1, 1⟩⟩, ⟨.plus, "+", ⟨2, 1, 3⟩⟩,
      ⟨.identifier, "and", ⟨4, 1, 5⟩⟩, ⟨.identifier, "x", ⟨8, 1, 9⟩⟩, .atEnd ⟨9, 1, 10⟩] =
      .ok start :=
    ⟨_, rfl⟩
  obtain ⟨_, hstart, -, hfirst⟩ := answers_afresh h []
  cases hstart
  obtain ⟨r, p, hp, hrests, -, -, -, stream, left, hstream, hread, hleft⟩ := hfirst .formula
  obtain ⟨_, hafter, -, hsecond⟩ := answers_afresh h [.formula]
  rw [after, hp] at hafter
  cases hafter
  have hindex : start.index = 0 := by
    cases h
    rfl
  rw [hindex] at hstream
  cases hstream
  cases hread
  have hthree : p.index = 3 := by
    have hlength : 2 = _ := congrArg List.length hleft
    have hlt : p.index < 5 := hrests.index
    rw [List.length_drop] at hlength
    simp only [List.length_cons, List.length_nil] at hlength
    omega
  obtain ⟨_, q, hq, -, -, -, -, stream, left, hstream, hread, -⟩ := hsecond .formula
  rw [hthree] at hstream
  cases hstream
  cases hread
  exact ⟨start, p, q, h, hp, hthree, hrests.depth, hq⟩

end Parser

end RuleFormula
