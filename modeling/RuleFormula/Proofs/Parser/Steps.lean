import RuleFormula.Proofs.Grammar.Stream
import RuleFormula.Proofs.Parser.Basic

/-! The steps of a parser against what a reader finds. An action gives an outcome if it ends, with
the answer that the outcome stands for, in front of the tokens that the outcome leaves and with so
many levels open. This composes as the outcomes do. -/
set_option autoImplicit false

namespace RuleFormula

open Grammar

namespace TokenStream

def parser (s : TokenStream) (limit depth : Nat) (ts : List Token) : Parser :=
  ⟨s.tokens, s.body.length - ts.length, depth, limit⟩

/-- What a parser answers where a reader finds the outcome. -/
def reply {α : Type} (s : TokenStream) (limit : Nat) : Outcome α → Except ParseError α
  | .ok a _ => .ok a
  | .error fault ts => .error ((⟨ts, s.ending⟩ : TokenStream).explain limit fault)

theorem parser_eq {s : TokenStream} {used ts : List Token} (h : s.body = used ++ ts)
    (limit depth : Nat) : s.parser limit depth ts = ⟨s.tokens, used.length, depth, limit⟩ := by
  rw [parser, h, List.length_append, Nat.add_sub_cancel]

end TokenStream

open Parser.Action

namespace Parser

variable {α β : Type} {s : TokenStream} {limit before after depth : Nat}

/-- In front of the tokens, an action ends with the outcome, on a parser in front of what the
outcome leaves. -/
def Gives (s : TokenStream) (limit : Nat) (m : Action α) (before after : Nat) (ts : List Token)
    (o : Outcome α) : Prop :=
  ts <:+ s.body →
    m (s.parser limit before ts) = some (s.reply limit o, s.parser limit after o.rest) ∧
      o.rest <:+ ts

namespace Gives

variable {m : Action α} {ts us : List Token} {t : Token} {o : Outcome α}

theorem pure (a : α) : Gives s limit (pure a) depth depth ts (.ok a ts) :=
  fun _ => ⟨rfl, List.suffix_refl ts⟩

theorem throw (fault : Fault) :
    Gives s limit (throw ((⟨ts, s.ending⟩ : TokenStream).explain limit fault) : Action α)
      depth depth ts (.error fault ts) :=
  fun _ => ⟨rfl, List.suffix_refl ts⟩

theorem bind_ok {middle : Nat} {a : α} {f : α → Action β} {o : Outcome β}
    (h : Gives s limit m before middle ts (.ok a us)) (hf : Gives s limit (f a) middle after us o) :
    Gives s limit (m >>= f) before after ts o := by
  intro hts
  obtain ⟨hm, hus⟩ := h hts
  obtain ⟨hfa, ho⟩ := hf (hus.trans hts)
  refine ⟨?_, ho.trans hus⟩
  simp only [bind, ExceptT.bind, ExceptT.mk, StateT.bind, hm]
  exact hfa

theorem bind_error {fault : Fault} {f : α → Action β}
    (h : Gives s limit m before after ts (.error fault us)) :
    Gives s limit (m >>= f) before after ts (.error fault us) := by
  intro hts
  obtain ⟨hm, hus⟩ := h hts
  refine ⟨?_, hus⟩
  simp only [bind, ExceptT.bind, ExceptT.mk, StateT.bind, hm]
  rfl

theorem andThen {f : α → Action β} {g : α → Reader β} (h : Gives s limit m depth depth ts o)
    (hf : ∀ a us, o = .ok a us → Gives s limit (f a) depth depth us (g a us)) :
    Gives s limit (m >>= f) depth depth ts (o.andThen g) := by
  cases o with
  | ok a us => exact h.bind_ok (hf a us rfl)
  | error fault us => exact h.bind_error

theorem exists_andThen {f : α → Action β} {g : α → Reader β} (h : Gives s limit m depth depth ts o)
    (hf : ∀ a us, o = .ok a us → ∃ after, Gives s limit (f a) depth after us (g a us)) :
    ∃ after, Gives s limit (m >>= f) depth after ts (o.andThen g) := by
  cases o with
  | ok a us =>
    obtain ⟨after, hfa⟩ := hf a us rfl
    exact ⟨after, h.bind_ok hfa⟩
  | error fault us => exact ⟨depth, h.bind_error⟩

theorem map (h : Gives s limit m before after ts o) (f : α → β) :
    Gives s limit (do let a ← m; Pure.pure (f a)) before after ts (o.map f) := by
  cases o with
  | ok a us => exact h.bind_ok (.pure (f a))
  | error fault us => exact h.bind_error

theorem closed (h : Gives s limit m before (after + 1) ts o) :
    Gives s limit (fun p => m p >>= close) before after ts o := by
  intro hts
  obtain ⟨hm, ho⟩ := h hts
  refine ⟨?_, ho⟩
  simp only [hm, Option.bind_eq_bind, Option.bind_some]
  rfl

theorem restored (h : Gives s limit m before after ts o) :
    Gives s limit (fun p => do
      let (result, q) ← m p
      return (result, { q with depth := p.depth })) before before ts o := by
  intro hts
  obtain ⟨hm, ho⟩ := h hts
  refine ⟨?_, ho⟩
  simp only [hm, Option.bind_eq_bind, Option.bind_some]
  cases o <;> rfl

theorem current : Gives s limit current depth depth ts (.ok (ts.head?.getD s.ending) ts) := by
  intro hts
  obtain ⟨used, hbody⟩ := hts
  refine ⟨?_, List.suffix_refl ts⟩
  rw [TokenStream.reply, Outcome.rest, TokenStream.parser_eq hbody.symm, Action.current,
    TokenStream.getElem?_tokens hbody.symm]
  rfl

theorem peek : Gives s limit peek depth depth (t :: ts)
    (.ok (some (ts.head?.getD s.ending)) (t :: ts)) := by
  intro hts
  obtain ⟨used, hbody⟩ := hts
  have hnext : s.body = (used ++ [t]) ++ ts := by simpa using hbody.symm
  refine ⟨?_, List.suffix_refl _⟩
  have hget := TokenStream.getElem?_tokens hnext
  rw [List.length_append] at hget
  rw [TokenStream.reply, Outcome.rest, TokenStream.parser_eq hbody.symm, Action.peek, ← hget]
  rfl

theorem peek_end : Gives s limit Action.peek depth depth [] (.ok none []) := by
  intro _
  refine ⟨?_, List.suffix_refl []⟩
  have hlt : s.tokens.length ≤ s.body.length + 1 := Nat.le_of_eq s.length_tokens
  rw [TokenStream.reply, Outcome.rest, TokenStream.parser_eq (List.append_nil s.body).symm,
    Action.peek, List.getElem?_eq_none hlt]

theorem advance : Gives s limit advance depth depth (t :: ts) (.ok t ts) := by
  intro hts
  obtain ⟨used, hbody⟩ := hts
  have hnext : s.body = (used ++ [t]) ++ ts := by simpa using hbody.symm
  have hlt : used.length + 1 < s.tokens.length := by
    rw [TokenStream.length_tokens, ← hbody]
    simp
  refine ⟨?_, List.suffix_cons t ts⟩
  rw [TokenStream.reply, Outcome.rest, TokenStream.parser_eq hbody.symm,
    TokenStream.parser_eq hnext, Action.advance, TokenStream.getElem?_tokens hbody.symm]
  simp [hlt]

theorem current_bind {f : Token → Action α}
    (h : Gives s limit (f (ts.head?.getD s.ending)) before after ts o) :
    Gives s limit (Action.current >>= f) before after ts o :=
  current.bind_ok h

theorem current_head {f : Token → Action α} (h : Gives s limit (f t) before after (t :: ts) o) :
    Gives s limit (Action.current >>= f) before after (t :: ts) o :=
  current_bind h

theorem current_end {f : Token → Action α} (h : Gives s limit (f s.ending) before after [] o) :
    Gives s limit (Action.current >>= f) before after [] o :=
  current_bind h

theorem advance_bind {f : Token → Action α} (h : Gives s limit (f t) before after ts o) :
    Gives s limit (Action.advance >>= f) before after (t :: ts) o :=
  advance.bind_ok h

theorem fail {cause : Token → ParseError.Cause} {fault : Fault}
    (h : ((⟨ts, s.ending⟩ : TokenStream).explain limit fault) =
      ⟨cause (ts.head?.getD s.ending), some (ts.head?.getD s.ending).location⟩) :
    Gives s limit (fail cause : Action α) depth depth ts (.error fault ts) := by
  refine .current_bind ?_
  rw [← h]
  exact .throw fault

theorem deepen (h : before < limit) : Gives s limit deepen before (before + 1) ts (.ok () ts) := by
  intro _
  refine ⟨?_, List.suffix_refl ts⟩
  show (if limit ≤ before then _ else _ : Action Unit) _ = _
  rw [if_neg (Nat.not_le.2 h)]
  rfl

theorem deepen_limit : Gives s limit Action.deepen limit limit ts (.error .tooDeep ts) := by
  intro hts
  refine ⟨?_, List.suffix_refl ts⟩
  show (if limit ≤ limit then _ else _ : Action Unit) _ = _
  rw [if_pos (Nat.le_refl limit)]
  exact (fail rfl hts).1

end Gives

end Parser

end RuleFormula
