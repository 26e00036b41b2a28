import Mathlib.Data.List.Forall2
import RuleFormula.Proofs.Grammar.Stream

set_option autoImplicit false

namespace RuleFormula

open Grammar

/-- The tokens are read as `e` where there is enough for it, and else reading fails for want of
levels. -/
def ReadsWhen (enough : Prop) (limit : Nat) (ts : List Token) (e : Expr) : Prop :=
  (∀ x, parseTokens limit ts = .ok x ↔ x = e ∧ enough) ∧
    ∀ E, parseTokens limit ts = .error E → ∃ l, E = ⟨.tooDeep limit, some l⟩

theorem Grammar.Phrase.readsWhen {body : List Token} {e : Expr} (p : Phrase .or body e)
    {ending : Token} (he : ending.kind = .endOfInput) (hb : ∀ t ∈ body, t.kind ≠ .endOfInput)
    {limit : Nat} {enough : Prop} (h : enough ↔ p.levels < limit) :
    ReadsWhen enough limit (body ++ [ending]) e := by
  rw [ReadsWhen, parseTokens_append limit he hb, h]
  rcases Nat.lt_or_ge p.levels limit with hlt | hge
  · rw [TokenStream.readFormula_eq_ok_iff.2 ⟨p, hlt⟩]
    refine ⟨fun x => ?_, fun E hE => nomatch hE⟩
    rw [Except.ok.injEq, eq_comm, and_iff_left hlt]
  · obtain ⟨l, hdeep⟩ := TokenStream.readFormula_of_levels_ge (s := ⟨body, ending⟩) p hge
    rw [hdeep]
    refine ⟨fun x => ?_, fun E hE => ⟨l, (Except.error.inj hE).symm⟩⟩
    simp [Nat.not_lt_of_le hge]

namespace TokenStream

/-- The stream is a formula with this tree. -/
def IsFormula (s : TokenStream) (e : Expr) : Prop := ∃ limit, parseTokens limit s.tokens = .ok e

def Accepted (s : TokenStream) (limit : Nat) : Prop := ∃ e, parseTokens limit s.tokens = .ok e

theorem IsFormula.exists_phrase {s : TokenStream} {e : Expr} (h : s.IsFormula e) :
    s.Ended ∧ ∃ p : Phrase .or s.body e, ∀ limit, s.Accepted limit ↔ p.levels < limit := by
  obtain ⟨limit, h⟩ := h
  obtain ⟨he, hb, p, -⟩ := parseTokens_eq_ok_iff.1 h
  refine ⟨⟨he, hb⟩, p, fun limit => ?_⟩
  simp only [Accepted, tokens, (p.readsWhen he hb .rfl).1, exists_eq_left]

theorem ended_of_isFormula {args : List TokenStream} {es : List Expr}
    (h : List.Forall₂ IsFormula args es) : ∀ s ∈ args, s.Ended := by
  induction h with
  | nil => exact List.forall_mem_nil _
  | cons hs _ ih => exact List.forall_mem_cons.2 ⟨hs.exists_phrase.1, ih⟩

end TokenStream

namespace Grammar

/-- Lists of tokens with a comma between any two of them. -/
inductive Separated : List (List Token) → List Token → Prop
  | none : Separated [] []
  | one (ts : List Token) : Separated [ts] ts
  | more {comma : Token} {us vs : List Token} {parts : List (List Token)} (ts : List Token)
      (hc : comma.kind = .comma) (rest : Separated (us :: parts) vs) :
      Separated (ts :: us :: parts) (ts ++ comma :: vs)

namespace Separated

variable {parts : List (List Token)} {args : List TokenStream} {es : List Expr} {ts : List Token}

theorem ne_endOfInput (h : Separated parts ts)
    (hp : ∀ part ∈ parts, ∀ t ∈ part, t.kind ≠ .endOfInput) : ∀ t ∈ ts, t.kind ≠ .endOfInput := by
  induction h with
  | none => exact List.forall_mem_nil _
  | one ts => exact hp ts (.head _)
  | more ts hc _ ih =>
    rw [List.forall_mem_append, List.forall_mem_cons]
    exact ⟨hp ts (.head _), by simp [hc], ih fun part hpart => hp part (.tail _ hpart)⟩

theorem exists_arguments (h : Separated parts ts) : ∀ {args : List TokenStream} {es : List Expr}
    {close : Token}, args ≠ [] → args.map TokenStream.body = parts →
      List.Forall₂ TokenStream.IsFormula args es → close.kind = .rightParen →
        ∃ a : Arguments (ts ++ [close]) es,
          ∀ limit, (∀ s ∈ args, s.Accepted limit) ↔ a.levels ≤ limit := by
  induction h with
  | none =>
    intro args es close hne hparts
    exact absurd (List.map_eq_nil_iff.1 hparts) hne
  | one ts =>
    intro args es close _ hparts hargs hc
    obtain _ | @⟨s, e, _, _, hs, hrest⟩ := hargs
    · cases hparts
    · obtain ⟨rfl, hnil⟩ := List.cons.inj hparts
      obtain rfl := List.map_eq_nil_iff.1 hnil
      obtain _ | _ := hrest
      obtain ⟨-, p, hp⟩ := hs.exists_phrase
      refine ⟨.last p hc, fun limit => ?_⟩
      rw [List.forall_mem_singleton, hp, Arguments.levels]
      exact Nat.lt_iff_add_one_le
  | more ts hcomma _ ih =>
    intro args es close _ hparts hargs hc
    obtain _ | @⟨s, e, args, es, hs, hrest⟩ := hargs
    · cases hparts
    · obtain ⟨rfl, hmore⟩ := List.cons.inj hparts
      obtain ⟨-, p, hp⟩ := hs.exists_phrase
      obtain ⟨a, ha⟩ := ih (by rintro rfl; cases hmore) hmore hrest hc
      rw [List.append_assoc]
      refine ⟨.more p hcomma a, fun limit => ?_⟩
      rw [List.forall_mem_cons, hp, ha, Arguments.levels]
      omega

theorem exists_call {name opening close : Token} (h : Separated (args.map TokenStream.body) ts)
    (hargs : List.Forall₂ TokenStream.IsFormula args es) (hn : name.kind = .identifier)
    (ho : opening.kind = .leftParen) (hc : close.kind = .rightParen) :
    ∃ o : Operand (name :: opening :: (ts ++ [close])) (.call name.text es name.location.offset),
      ∀ limit, (∀ s ∈ args, s.Accepted limit) ↔ o.levels ≤ limit := by
  cases hargs with
  | nil =>
    obtain _ | _ := h
    exact ⟨.emptyCall hn ho hc, fun limit => by simp [Operand.levels]⟩
  | cons hs hrest =>
    obtain ⟨a, ha⟩ := h.exists_arguments (List.cons_ne_nil _ _) rfl (.cons hs hrest) hc
    exact ⟨.call hn ho a, ha⟩

end Separated

end Grammar

/-- A call with formulas between commas is read under a limit if each of the formulas is read alone
with one level less, and so is any of them in parentheses. Whatever the name spells, the tree is the
call of it with their trees in order. -/
theorem parseTokens_call {name opening close ending : Token} {args : List TokenStream}
    {es : List Expr} {ts : List Token} (hn : name.kind = .identifier)
    (ho : opening.kind = .leftParen) (hc : close.kind = .rightParen)
    (he : ending.kind = .endOfInput) (hargs : List.Forall₂ TokenStream.IsFormula args es)
    (hts : Separated (args.map TokenStream.body) ts) (limit : Nat) :
    ReadsWhen (∀ s ∈ args, s.Accepted limit) (limit + 1)
      (name :: opening :: (ts ++ [close]) ++ [ending])
      (.call name.text es name.location.offset) ∧
    List.Forall₂ (fun s e => ReadsWhen (s.Accepted limit) (limit + 1)
      (opening :: s.body ++ [close] ++ [ending]) e) args es := by
  constructor
  · have hb : ∀ t ∈ name :: opening :: (ts ++ [close]), t.kind ≠ .endOfInput := by
      have hbody := hts.ne_endOfInput
        (List.forall_mem_map.2 fun s hs => (TokenStream.ended_of_isFormula hargs s hs).2)
      simp only [List.forall_mem_cons, List.forall_mem_append]
      exact ⟨by simp [hn], by simp [ho], hbody, by simp [hc], List.forall_mem_nil _⟩
    obtain ⟨o, hlevels⟩ := hts.exists_call hargs hn ho hc
    obtain ⟨p, hp⟩ := o.exists_phrase .or
    exact p.readsWhen he hb (by rw [hlevels, hp, Nat.lt_succ_iff])
  · refine hargs.imp fun s e hs => ?_
    obtain ⟨hend, q, hlevels⟩ := hs.exists_phrase
    have hb : ∀ t ∈ opening :: s.body ++ [close], t.kind ≠ .endOfInput := by
      simp only [List.cons_append, List.forall_mem_cons, List.forall_mem_append]
      exact ⟨by simp [ho], hend.2, by simp [hc], List.forall_mem_nil _⟩
    obtain ⟨p, hp⟩ := (Operand.group ho q hc).exists_phrase .or
    exact p.readsWhen he hb (by rw [hlevels, hp, Operand.levels, Nat.succ_lt_succ_iff])

theorem parseTokens_call_sums : ∃ e,
    parseTokens 3 [⟨.identifier, "not", ⟨0, 1, 1⟩⟩, ⟨.leftParen, "(", ⟨3, 1, 4⟩⟩,
      ⟨.identifier, "a", ⟨4, 1, 5⟩⟩, ⟨.plus, "+", ⟨5, 1, 6⟩⟩, ⟨.identifier, "b", ⟨6, 1, 7⟩⟩,
      ⟨.comma, ",", ⟨7, 1, 8⟩⟩, ⟨.identifier, "c", ⟨8, 1, 9⟩⟩, ⟨.minus, "-", ⟨9, 1, 10⟩⟩,
      ⟨.identifier, "d", ⟨10, 1, 11⟩⟩, ⟨.rightParen, ")", ⟨11, 1, 12⟩⟩, .atEnd ⟨12, 1, 13⟩] =
    .ok e := by
  let sum : TokenStream := ⟨[⟨.identifier, "a", ⟨4, 1, 5⟩⟩, ⟨.plus, "+", ⟨5, 1, 6⟩⟩,
    ⟨.identifier, "b", ⟨6, 1, 7⟩⟩], .atEnd .start⟩
  let difference : TokenStream := ⟨[⟨.identifier, "c", ⟨8, 1, 9⟩⟩, ⟨.minus, "-", ⟨9, 1, 10⟩⟩,
    ⟨.identifier, "d", ⟨10, 1, 11⟩⟩], .atEnd .start⟩
  have hsum : parseTokens 2 sum.tokens =
    .ok (.binary .add (.field ["a"] 4) (.field ["b"] 6) 5) := rfl
  have hdifference : parseTokens 2 difference.tokens =
    .ok (.binary .subtract (.field ["c"] 8) (.field ["d"] 10) 9) := rfl
  have hn : (⟨.identifier, "not", ⟨0, 1, 1⟩⟩ : Token).kind = .identifier := rfl
  have ho : (⟨.leftParen, "(", ⟨3, 1, 4⟩⟩ : Token).kind = .leftParen := rfl
  have hcomma : (⟨.comma, ",", ⟨7, 1, 8⟩⟩ : Token).kind = .comma := rfl
  have hc : (⟨.rightParen, ")", ⟨11, 1, 12⟩⟩ : Token).kind = .rightParen := rfl
  have he : (Token.atEnd ⟨12, 1, 13⟩).kind = .endOfInput := rfl
  obtain ⟨hcall, -⟩ := parseTokens_call hn ho hc he (.cons ⟨2, hsum⟩ (.cons ⟨2, hdifference⟩ .nil))
    (.more sum.body hcomma (.one difference.body)) 2
  refine ⟨_, (hcall.1 _).2 ⟨rfl, ?_⟩⟩
  simp only [List.forall_mem_cons]
  exact ⟨⟨_, hsum⟩, ⟨_, hdifference⟩, List.forall_mem_nil _⟩

end RuleFormula
