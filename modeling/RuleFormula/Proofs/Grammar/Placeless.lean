import RuleFormula.Proofs.Expr.Shape
import RuleFormula.Proofs.Grammar.Stream
import RuleFormula.Proofs.Token.Reads

/-! Reading sees the kinds and the texts of tokens, and nothing of their places. Tokens of the same
kinds and texts are read as trees that differ in places only, or fail at the same one of them. -/
set_option autoImplicit false

namespace RuleFormula

namespace Token

/-- The token with its place set to the start. -/
def unplaced (t : Token) : Token := { t with location := .start }

@[simp] theorem kind_unplaced (t : Token) : t.unplaced.kind = t.kind := rfl

@[simp] theorem text_unplaced (t : Token) : t.unplaced.text = t.text := rfl

@[simp] theorem offset_unplaced (t : Token) : t.unplaced.location.offset = 0 := rfl

@[simp] theorem keyword?_unplaced (t : Token) : t.unplaced.keyword? = t.keyword? := rfl

@[simp] theorem negates_unplaced (t : Token) (ts : List Token) :
    t.unplaced.negates (ts.map unplaced).head? = t.negates ts.head? := by
  cases ts <;> rfl

theorem unplaced_eq_iff {t u : Token} : t.unplaced = u.unplaced ↔ t.spelling = u.spelling := by
  simp [unplaced, spelling]

theorem map_unplaced_eq_iff {ts us : List Token} :
    ts.map unplaced = us.map unplaced ↔ ts.map spelling = us.map spelling := by
  induction ts generalizing us with
  | nil => cases us <;> simp
  | cons t ts ih =>
    cases us with
    | nil => simp
    | cons u us => simp only [List.map_cons, List.cons.injEq, unplaced_eq_iff, ih]

end Token

def Expectation.unplaced : Expectation → Expectation
  | closing _ => closing .start
  | what => what

namespace Grammar

variable {α β : Type}

@[simp] theorem Tier.operator?_unplaced (tier : Tier) (t : Token) :
    tier.operator? t.unplaced = tier.operator? t := rfl

def Fault.unplaced : Fault → Fault
  | expected what => expected what.unplaced
  | trailing found => trailing found.unplaced
  | keyword word => keyword word.unplaced
  | fault => fault

@[simp] theorem Fault.site_unplaced (fault : Fault) (rest : List Token) :
    fault.unplaced.site (rest.map Token.unplaced) = (fault.site rest).map Token.unplaced := by
  cases fault <;> rfl

def Outcome.unplaced (f : α → α) : Outcome α → Outcome α
  | ok a rest => ok (f a) (rest.map Token.unplaced)
  | error fault rest => error fault.unplaced (rest.map Token.unplaced)

/-- Off tokens without places, `r` reads what `s` reads off them with their places. -/
def Placeless (f : α → α) (r s : Reader α) : Prop :=
  ∀ ts, r (ts.map Token.unplaced) = (s ts).unplaced f

namespace Placeless

variable {f : α → α} {g : β → β} {r s : Reader α}

theorem map {h h' : α → β} (hr : Placeless f r s) (hh : ∀ a, h' (f a) = g (h a)) (ts : List Token) :
    (r (ts.map Token.unplaced)).map h' = ((s ts).map h).unplaced g := by
  rw [hr ts]
  cases s ts with
  | ok a rest => simp only [Outcome.unplaced, Outcome.map_ok, hh]
  | error fault rest => rfl

theorem andThen {h h' : α → Reader β} (hr : Placeless f r s)
    (hh : ∀ a, Placeless g (h' (f a)) (h a)) (ts : List Token) :
    (r (ts.map Token.unplaced)).andThen h' = ((s ts).andThen h).unplaced g := by
  rw [hr ts]
  cases s ts with
  | ok a rest => exact hh a rest
  | error fault rest => rfl

end Placeless

theorem expect_placeless (kind : Token.Kind) (what : Expectation) :
    Placeless Token.unplaced (expect kind what.unplaced) (expect kind what) := by
  intro ts
  cases ts with
  | nil => rfl
  | cons t ts =>
    by_cases hk : t.kind = kind <;> simp [expect, hk, Outcome.unplaced, Fault.unplaced]

theorem segments_placeless : Placeless id segments segments := by
  intro ts
  induction hn : ts.length using Nat.strongRecOn generalizing ts with
  | _ n ih =>
    cases ts with
    | nil => rfl
    | cons t ts =>
      by_cases hp : t.kind = .dot
      · have hp' : t.unplaced.kind = .dot := hp
        rw [List.map_cons, segments_of_dot hp, segments_of_dot hp']
        have hx : expect .identifier .fieldName (ts.map Token.unplaced) = _ :=
          expect_placeless .identifier .fieldName ts
        rw [hx]
        cases hname : expect .identifier .fieldName ts with
        | error fault rest => rfl
        | ok name rest =>
          obtain ⟨rfl, -⟩ := expect_eq_ok hname
          have hrest := ih rest.length (by simp only [List.length_cons] at hn; omega) rest rfl
          simp only [Outcome.unplaced, Outcome.andThen_ok, hrest, Token.text_unplaced]
          cases segments rest <;> rfl
      · have hp' : t.unplaced.kind ≠ .dot := hp
        rw [List.map_cons, segments_of_ne_dot hp, segments_of_ne_dot hp']
        rfl

theorem path_placeless (first : String) (position : Nat) :
    Placeless Expr.unplaced (path first 0) (path first position) :=
  segments_placeless.map fun _ => rfl

theorem closing_placeless (opened : Location) (e : Expr) : Placeless Expr.unplaced
    (fun ts => (expect .rightParen (.closing .start) ts).map fun _ => e.unplaced)
    (fun ts => (expect .rightParen (.closing opened) ts).map fun _ => e) :=
  (expect_placeless .rightParen (.closing opened)).map fun _ => by rfl

theorem word_placeless (t : Token) : Placeless Expr.unplaced (word t.unplaced) (word t) := by
  intro ts
  cases hk : t.keyword? with
  | none =>
    simp only [word, Token.keyword?_unplaced, hk]
    rfl
  | some k => cases k <;> simp only [word, Token.keyword?_unplaced, hk] <;> rfl

structure Inner.Placeless (i : Inner) : Prop where
  read : ∀ tier, Grammar.Placeless Expr.unplaced (i.read tier) (i.read tier)
  extend : ∀ tier left, Grammar.Placeless Expr.unplaced (i.extend tier left.unplaced)
    (i.extend tier left)

section

variable {inner : Option Inner} (inside : ∀ i ∈ inner, i.Placeless)

include inside

theorem enter_placeless (tier : Tier) :
    Placeless Expr.unplaced (enter inner fun i => i.read tier)
      (enter inner fun i => i.read tier) := by
  cases inner with
  | none => exact fun _ => rfl
  | some i => exact (inside i rfl).read tier

theorem expression_placeless : Placeless Expr.unplaced (expression inner) (expression inner) :=
  enter_placeless inside .or

theorem arguments_placeless (function : String) (fuel : Nat) :
    Placeless Expr.unplacedList (arguments inner function fuel)
      (arguments inner function fuel) := by
  induction fuel with
  | zero => exact fun _ => rfl
  | succ fuel ih =>
    refine (expression_placeless inside).andThen fun e ts => ?_
    cases ts with
    | nil => rfl
    | cons t ts =>
      by_cases hc : t.kind = .comma
      · simp only [List.map_cons, Token.kind_unplaced, hc, if_true]
        exact ih.map (fun _ => by rfl) ts
      · by_cases hr : t.kind = .rightParen <;> simp [hr, hc, Outcome.unplaced, Fault.unplaced,
          Expectation.unplaced, Expr.unplacedList]

theorem argumentList_placeless (function : String) :
    Placeless Expr.unplacedList (argumentList inner function) (argumentList inner function) := by
  intro ts
  cases ts with
  | nil => exact arguments_placeless inside function 1 []
  | cons t ts =>
    by_cases hr : t.kind = .rightParen
    · simp [argumentList, hr, Outcome.unplaced, Expr.unplacedList]
    · have h := arguments_placeless inside function ((t :: ts).length + 1) (t :: ts)
      simpa [argumentList, hr] using h

theorem call_placeless (name : Token) :
    Placeless Expr.unplaced (call inner name.unplaced) (call inner name) :=
  (argumentList_placeless inside name.text).map fun _ => rfl

theorem named_placeless (name : Token) :
    Placeless Expr.unplaced (named inner name.unplaced) (named inner name) := by
  intro ts
  cases ts with
  | nil => exact word_placeless name []
  | cons t ts =>
    by_cases ho : t.kind = .leftParen
    · simpa only [List.map_cons, named, Token.kind_unplaced, ho, if_true] using
        call_placeless inside name ts
    · by_cases hd : t.kind = .dot
      · simpa [named, hd] using path_placeless name.text name.location.offset (t :: ts)
      · simpa only [List.map_cons, named, Token.kind_unplaced, ho, hd, if_false] using
          word_placeless name (t :: ts)

theorem operand_placeless : Placeless Expr.unplaced (operand inner) (operand inner) := by
  intro ts
  cases ts with
  | nil => rfl
  | cons t ts =>
    have step : operand inner ((t :: ts).map Token.unplaced) =
        operand inner (t.unplaced :: ts.map Token.unplaced) := rfl
    rw [step]
    cases hk : t.kind with
    | number =>
      cases hd : Decimal.read t.text with
      | ok d => simp only [operand, Token.kind_unplaced, Token.text_unplaced, hk, hd]; rfl
      | error e => simp only [operand, Token.kind_unplaced, Token.text_unplaced, hk, hd]; rfl
    | boolean =>
      simp only [operand, Token.kind_unplaced, Token.text_unplaced, hk]
      cases hw : Keyword.ofText? t.text with
      | none => rfl
      | some k => cases k <;> rfl
    | identifier =>
      simpa only [operand, Token.kind_unplaced, hk] using named_placeless inside t ts
    | fieldMarker =>
      simp only [operand, Token.kind_unplaced, hk]
      exact (expect_placeless .identifier .globalName).andThen
        (fun name => path_placeless ("$" ++ name.text) t.location.offset) ts
    | leftParen =>
      simp only [operand, Token.kind_unplaced, hk]
      exact (expression_placeless inside).andThen (closing_placeless t.location) ts
    | _ => simp only [operand, Token.kind_unplaced, hk]; rfl

theorem sign_placeless : Placeless Expr.unplaced (sign inner) (sign inner) := by
  intro ts
  cases ts with
  | nil => exact operand_placeless inside []
  | cons t ts =>
    by_cases hm : t.kind = .minus
    · simp only [List.map_cons, sign, Token.kind_unplaced, hm, if_true]
      exact (enter_placeless inside .sign).map (fun _ => by rfl) ts
    · by_cases hp : t.kind = .plus
      · simpa [sign, hp] using enter_placeless inside .sign ts
      · simpa only [List.map_cons, sign, Token.kind_unplaced, hm, hp, if_false] using
          operand_placeless inside (t :: ts)

theorem power_placeless : Placeless Expr.unplaced (power inner) (power inner) := by
  refine (sign_placeless inside).andThen fun base ts => ?_
  cases ts with
  | nil => rfl
  | cons t ts =>
    cases ho : Tier.power.operator? t with
    | none => simp only [List.map_cons, Tier.operator?_unplaced, ho]; rfl
    | some op =>
      simp only [List.map_cons, Tier.operator?_unplaced, ho]
      exact (enter_placeless inside .power).map (fun _ => by rfl) ts

theorem extend_placeless (tier : Tier) (left : Expr) :
    Placeless Expr.unplaced (extend inner tier left.unplaced) (extend inner tier left) := by
  intro ts
  cases ts with
  | nil => rfl
  | cons t ts =>
    cases ho : tier.operator? t with
    | none => simp only [List.map_cons, extend, Tier.operator?_unplaced, ho]; rfl
    | some op =>
      cases inner with
      | none => simp only [List.map_cons, extend, Tier.operator?_unplaced, ho]; rfl
      | some i =>
        obtain ⟨read, further⟩ := inside i rfl
        simp only [List.map_cons, extend, Tier.operator?_unplaced, ho]
        exact (read tier.tighter).andThen
          (fun right => further tier (.binary op left right t.location.offset)) ts

theorem chain_placeless (tier : Tier) {first : Reader Expr}
    (h : Placeless Expr.unplaced first first) :
    Placeless Expr.unplaced (chain inner tier first) (chain inner tier first) :=
  h.andThen (extend_placeless inside tier)

theorem negation_placeless (h : Placeless Expr.unplaced (comparison inner) (comparison inner)) :
    Placeless Expr.unplaced (negation inner) (negation inner) := by
  intro ts
  cases ts with
  | nil => exact h []
  | cons t ts =>
    by_cases hn : t.negates ts.head?
    · simp only [List.map_cons, negation, Token.negates_unplaced, hn, if_true]
      exact (enter_placeless inside .not).map (fun _ => by rfl) ts
    · simp only [List.map_cons, negation, Token.negates_unplaced, if_neg hn]
      exact h (t :: ts)

theorem reader_placeless (tier : Tier) :
    Placeless Expr.unplaced (tier.reader inner) (tier.reader inner) := by
  induction tier using Tier.loosening_induction with
  | sign => exact sign_placeless inside
  | power => exact power_placeless inside
  | @chain tier _ rule h =>
    rw [rule.reader_eq]
    exact chain_placeless inside tier h
  | not h => exact negation_placeless inside h

end

theorem within_placeless (levels : Nat) : ∀ i ∈ Inner.within levels, i.Placeless := by
  induction levels with
  | zero => simp [Inner.within]
  | succ l ih =>
    intro i hi
    obtain rfl := Option.some.inj hi
    exact ⟨reader_placeless ih, extend_placeless ih⟩

theorem complete_placeless (limit : Nat) : Placeless Expr.unplaced
    (complete (Inner.within limit)) (complete (Inner.within limit)) := by
  refine (enter_placeless (within_placeless limit) .or).andThen fun e ts => ?_
  cases ts <;> rfl

end Grammar

open Grammar

namespace TokenStream

variable {s r : TokenStream}

/-- Streams with tokens of the same kinds and texts are read as trees with other places, or fail at
the same token. -/
theorem Ended.parseTokens_of_spelling_eq (hs : s.Ended) (hr : r.Ended)
    (h : s.body.map Token.spelling = r.body.map Token.spelling) (limit : Nat) :
    (∃ e e', parseTokens limit s.tokens = .ok e ∧ parseTokens limit r.tokens = .ok e' ∧
      e.unplaced = e'.unplaced) ∨
    ∃ i, ∃ hi : i < s.tokens.length, ∃ hi' : i < r.tokens.length, ∃ cause cause',
      parseTokens limit s.tokens = .error ⟨cause, some s.tokens[i].location⟩ ∧
      parseTokens limit r.tokens = .error ⟨cause', some r.tokens[i].location⟩ := by
  have heq : (complete (Inner.within limit) s.body).unplaced Expr.unplaced =
      (complete (Inner.within limit) r.body).unplaced Expr.unplaced := by
    rw [← complete_placeless, ← complete_placeless, Token.map_unplaced_eq_iff.2 h]
  cases hx : complete (Inner.within limit) s.body with
  | ok e rest =>
    cases hy : complete (Inner.within limit) r.body with
    | error => rw [hx, hy] at heq; cases heq
    | ok e' rest' =>
      rw [hx, hy] at heq
      refine .inl ⟨e, e', ?_, ?_, (Outcome.ok.inj heq).1⟩
      · rw [hs.parseTokens_eq]
        exact run_eq_ok_iff.2 ⟨rest, hx⟩
      · rw [hr.parseTokens_eq]
        exact run_eq_ok_iff.2 ⟨rest', hy⟩
  | error fault rest =>
    cases hy : complete (Inner.within limit) r.body with
    | ok => rw [hx, hy] at heq; cases heq
    | error fault' rest' =>
      rw [hx, hy] at heq
      obtain ⟨used, hused, -⟩ := exists_site hx
      obtain ⟨used', hused', -⟩ := exists_site hy
      obtain ⟨hfault, hrest⟩ := Outcome.error.inj heq
      have hsite : (fault.site rest).length = (fault'.site rest').length := by
        have hmap := congrArg List.length (fault.site_unplaced rest)
        rw [hfault, hrest, Fault.site_unplaced] at hmap
        simpa using hmap.symm
      have hlength : s.body.length = r.body.length := by simpa using congrArg List.length h
      have hindex : used'.length = used.length := by
        rw [hused, hused', List.length_append, List.length_append] at hlength
        omega
      obtain ⟨hi, he⟩ := hs.parseTokens_eq_error hx hused
      obtain ⟨hi', he'⟩ := hr.parseTokens_eq_error hy hused'
      simp only [hindex] at hi' he'
      exact .inr ⟨used.length, hi, hi', _, _, he, he'⟩

end TokenStream

end RuleFormula
