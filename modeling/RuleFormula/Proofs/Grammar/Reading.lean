import RuleFormula.Proofs.Grammar.Follow
import RuleFormula.Proofs.Grammar.Reader

/-! Every phrase is read, and takes exactly its levels: with fewer of them left, reading fails for
want of levels and for no other reason. -/
set_option autoImplicit false

namespace RuleFormula.Grammar

variable {α β : Type}

/-- With `cost` levels the outcome is `a`, and with fewer a failure for want of levels. -/
def Outcome.Costs (o : Outcome α) (cost levels : Nat) (a : α) (rest : List Token) : Prop :=
  (cost ≤ levels → o = .ok a rest) ∧ (levels < cost → ∃ left, o = .error .tooDeep left)

namespace Outcome.Costs

theorem ok (levels : Nat) (a : α) (rest : List Token) : Costs (.ok a rest) 0 levels a rest :=
  ⟨fun _ => rfl, fun h => absurd h (Nat.not_lt_zero _)⟩

theorem map {o : Outcome α} {cost levels : Nat} {a : α} {rest : List Token} (f : α → β)
    (h : Costs o cost levels a rest) : Costs (o.map f) cost levels (f a) rest := by
  constructor
  · intro hc
    rw [h.1 hc, map_ok]
  · intro hc
    obtain ⟨left, ho⟩ := h.2 hc
    exact ⟨left, by rw [ho, map_error]⟩

theorem andThen {o : Outcome α} {f : α → Reader β} {m n levels : Nat} {a : α} {b : β}
    {ts rest : List Token} (h : Costs o m levels a ts) (hf : Costs (f a ts) n levels b rest) :
    Costs (o.andThen f) (max m n) levels b rest := by
  constructor
  · intro hc
    rw [h.1 (by omega), andThen_ok, hf.1 (by omega)]
  · intro hc
    by_cases hm : m ≤ levels
    · rw [h.1 hm, andThen_ok]
      exact hf.2 (by omega)
    · obtain ⟨left, ho⟩ := h.2 (by omega)
      exact ⟨left, by rw [ho, andThen_error]⟩

theorem enter {tier : Tier} {ts rest : List Token} {e : Expr} {cost : Nat} (levels : Nat)
    (h : ∀ l, Costs (tier.reader (Inner.within l) ts) cost l e rest) :
    Costs (enter (Inner.within levels) (fun i => i.read tier) ts) (cost + 1) levels e rest := by
  cases levels with
  | zero => exact ⟨fun hc => absurd hc (Nat.not_succ_le_zero _), fun _ => ⟨ts, rfl⟩⟩
  | succ l => exact ⟨fun hc => (h l).1 (by omega), fun hc => (h l).2 (by omega)⟩

theorem extend {tier next : Tier} {t : Token} {op : BinaryOp} {ts us rest : List Token}
    {left right e : Expr} {m n : Nat} (levels : Nat) (rule : Chains tier next)
    (ho : tier.operator? t = some op)
    (h : ∀ l, Costs (next.reader (Inner.within l) ts) m l right us)
    (hf : ∀ l, Costs (Grammar.extend (Inner.within l) tier
      (.binary op left right t.location.offset) us) n l e rest) :
    Costs (Grammar.extend (Inner.within levels) tier left (t :: ts))
      (max m n + 1) levels e rest := by
  cases levels with
  | zero =>
    rw [extend_within_zero left ts ho]
    exact ⟨fun hc => absurd hc (Nat.not_succ_le_zero _), fun _ => ⟨t :: ts, rfl⟩⟩
  | succ l =>
    have hx : Costs _ (max m n) l e rest :=
      andThen (f := fun right => Grammar.extend (Inner.within l) tier
        (.binary op left right t.location.offset)) (h l) (hf l)
    rw [extend_within_succ l left ts ho, rule.tighter_eq]
    exact ⟨fun hc => hx.1 (by omega), fun hc => hx.2 (by omega)⟩

end Outcome.Costs

theorem extend_of_stops {tier : Tier} {ts : List Token} (inner : Option Inner) (left : Expr)
    (h : tier.Stops ts) : extend inner tier left ts = .ok left ts := by
  cases ts with
  | nil => rfl
  | cons t ts => simp only [extend, h.operator?_eq_none (Nat.le_refl _)]

theorem segments_append {ts : List Token} {names : List String} (path : Path ts names)
    {rest : List Token} (h : Tier.sign.Stops rest) : segments (ts ++ rest) = .ok names rest := by
  induction path with
  | nil =>
    cases rest with
    | nil => rfl
    | cons t rest =>
      unfold segments
      simp [(h t (by simp)).2.1]
  | cons hp hn _ ih => simp [segments, hp, hn, ih]

theorem named_of_stops {rest : List Token} (inner : Option Inner) (t : Token)
    (h : Tier.sign.Stops rest) : named inner t rest = word t rest := by
  cases rest with
  | nil => rfl
  | cons u rest =>
    obtain ⟨hp, hd, -⟩ := h u (by simp)
    simp only [named, hp, hd, if_false]

theorem Chain.stops {tier next : Tier} {ts rest : List Token} {left e : Expr}
    (c : Chain tier next ts left e) (rule : Chains tier next) (h : tier.Stops rest) :
    next.Stops (ts ++ rest) := by
  cases c with
  | done => exact h.mono (Nat.le_of_lt rule.rank_lt)
  | more hj => exact .of_joins rule hj _

theorem Arguments.head {ts : List Token} {es : List Expr} (a : Arguments ts es) :
    ∃ t us, ts = t :: us ∧ t.kind ≠ .rightParen := by
  cases a with
  | last p | more p =>
    obtain ⟨t, us, rfl, hp, -⟩ := p.head
    exact ⟨t, _, List.cons_append, hp⟩

open Outcome (Costs)

mutual

theorem Phrase.costs {tier : Tier} {ts : List Token} {e : Expr} : (p : Phrase tier ts e) →
    ∀ (levels : Nat) (rest : List Token), tier.Stops rest →
      Costs (tier.reader (Inner.within levels) (ts ++ rest)) p.levels levels e rest
  | .chain rule head tail, levels, rest, h => by
    rw [rule.reader_eq, List.append_assoc]
    exact (head.costs levels _ (tail.stops rule h)).andThen (tail.costs rule levels rest h)
  | @Phrase.bang t ts _ ht p, levels, rest, h => by
    have hn : t.negates (ts ++ rest).head? = true := by simp [Token.negates, ht]
    simp only [Tier.reader, List.cons_append, negation, hn, if_true]
    exact (Costs.enter levels fun l => p.costs l rest h).map _
  | @Phrase.word t ts _ ht hn p, levels, rest, h => by
    have hn : t.negates (ts ++ rest).head? = true := by
      have hk := Token.keyword?_eq_some_iff (k := .not).2 ht
      obtain ⟨u, us, rfl, -⟩ := p.head
      simpa [Token.negates, hk] using .inr (hn u rfl)
    simp only [Tier.reader, List.cons_append, negation, hn, if_true]
    exact (Costs.enter levels fun l => p.costs l rest h).map _
  | .comparison p, levels, rest, h => by
    have hp := p.costs levels rest (h.mono (by decide))
    obtain ⟨t, us, rfl, -, hn⟩ := p.head
    simp only [Tier.reader, List.cons_append, negation, hn (by decide) rest]
    exact hp
  | .power b ht x, levels, rest, h => by
    have ho := operator?_power_iff.2 ⟨ht, rfl⟩
    rw [List.append_assoc, List.cons_append]
    refine (b.costs levels _ (.of_caret _ ht)).andThen (f := _) ?_
    simp only [ho]
    exact (Costs.enter levels fun l => x.costs l rest h).map _
  | .sign p, levels, rest, h => by
    rw [← Nat.max_zero (Phrase.sign p).levels]
    refine (p.costs levels rest (h.mono (by decide))).andThen (f := _) ?_
    cases rest with
    | nil => exact .ok levels e []
    | cons u us =>
      simp only [h.operator?_eq_none (Nat.le_refl _)]
      exact .ok levels e (u :: us)
  | .minus ht p, levels, rest, h => by
    simp only [Tier.reader, List.cons_append, sign, ht, if_true]
    exact (Costs.enter levels fun l => p.costs l rest h).map _
  | .plus ht p, levels, rest, h => by
    simp only [Tier.reader, List.cons_append, sign, ht, if_true]
    exact Costs.enter levels fun l => p.costs l rest h
  | .operand p, levels, rest, h => by
    have hp := p.costs levels rest h
    obtain ⟨t, us, rfl, -, hm, hl, -⟩ := p.head
    simp only [Tier.reader, List.cons_append, sign, hm, hl, if_false]
    exact hp

theorem Chain.costs {tier next : Tier} {ts : List Token} {left e : Expr} :
    (c : Chain tier next ts left e) → Chains tier next → ∀ (levels : Nat) (rest : List Token),
      tier.Stops rest →
        Costs (extend (Inner.within levels) tier left (ts ++ rest)) c.levels levels e rest
  | .done, rule, levels, rest, h => by
    rw [List.nil_append, extend_of_stops _ _ h]
    exact .ok levels _ rest
  | .more hj p tail, rule, levels, rest, h => by
    rw [List.append_assoc, List.cons_append]
    exact .extend levels rule hj.operator?_eq_some
      (fun l => p.costs l _ (tail.stops rule h)) (fun l => tail.costs rule l rest h)

theorem Operand.costs {ts : List Token} {e : Expr} : (p : Operand ts e) →
    ∀ (levels : Nat) (rest : List Token), Tier.sign.Stops rest →
      Costs (operand (Inner.within levels) (ts ++ rest)) p.levels levels e rest
  | .number ht hd, levels, rest, _ => by
    simp only [List.singleton_append, operand, ht, hd]
    exact .ok levels _ rest
  | .string ht, levels, rest, _ => by
    simp only [List.singleton_append, operand, ht]
    exact .ok levels _ rest
  | .boolean b ht hw, levels, rest, _ => by
    cases b with
    | false =>
      have hk := Keyword.ofText?_eq_some_iff (k := .false).2 hw
      simp only [List.singleton_append, operand, ht, hk]
      exact .ok levels _ rest
    | true =>
      have hk := Keyword.ofText?_eq_some_iff (k := .true).2 hw
      simp only [List.singleton_append, operand, ht, hk]
      exact .ok levels _ rest
  | .booleanWord b hw, levels, rest, h => by
    cases b with
    | false =>
      have hi := ((Token.isWord_spelling .false).1 hw).1
      have hk := Token.keyword?_eq_some_iff (k := .false).2 hw
      simp only [List.singleton_append, operand, hi, named_of_stops _ _ h, word, hk]
      exact .ok levels _ rest
    | true =>
      have hi := ((Token.isWord_spelling .true).1 hw).1
      have hk := Token.keyword?_eq_some_iff (k := .true).2 hw
      simp only [List.singleton_append, operand, hi, named_of_stops _ _ h, word, hk]
      exact .ok levels _ rest
  | .null ht, levels, rest, h => by
    rcases ht with ht | hw
    · simp only [List.singleton_append, operand, ht]
      exact .ok levels _ rest
    · have hi := ((Token.isWord_spelling .null).1 hw).1
      have hk := Token.keyword?_eq_some_iff (k := .null).2 hw
      simp only [List.singleton_append, operand, hi, named_of_stops _ _ h, word, hk]
      exact .ok levels _ rest
  | .path ht path hr, levels, rest, h => by
    simp only [List.cons_append, operand, ht]
    cases path with
    | nil =>
      have hk := Keyword.ofText?_eq_none_iff.2 (hr rfl)
      simp only [List.nil_append, named_of_stops _ _ h, word, Token.keyword?, ht, if_true, hk]
      exact .ok levels _ rest
    | cons hp hn path =>
      have hs := segments_append (.cons hp hn path) h
      simp only [List.cons_append] at hs
      simp only [List.cons_append, named, hp, reduceCtorEq, if_false, if_true, Grammar.path, hs,
        Outcome.map_ok]
      exact .ok levels _ rest
  | .global ht hn path, levels, rest, h => by
    simp only [List.cons_append, operand, ht, expect, hn, if_true, Outcome.andThen_ok,
      Grammar.path, segments_append path h, Outcome.map_ok]
    exact .ok levels _ rest
  | .emptyCall hi ho hc, levels, rest, _ => by
    simp only [List.cons_append, List.nil_append, operand, hi, named, ho, if_true, call,
      argumentList, hc, Outcome.map_ok]
    exact .ok levels _ rest
  | @Operand.call name _ ts _ hi ho args, levels, rest, _ => by
    have ha := args.costs levels ((ts ++ rest).length + 1) name.text rest
      (by rw [List.length_append]; omega)
    obtain ⟨t, us, rfl, hp⟩ := args.head
    simp only [List.cons_append, operand, hi, named, ho, if_true, call, argumentList, hp, if_false]
    exact ha.map _
  | .group ho p hc, levels, rest, _ => by
    have hp := Costs.enter levels fun l => p.costs l _ (.of_kind _ rest (.inr hc))
    rw [List.append_assoc, List.cons_append]
    simp only [operand, ho]
    rw [← Nat.max_zero (Operand.group ho p hc).levels]
    refine hp.andThen (f := _) ?_
    simp only [expect, hc, if_true, Outcome.map_ok]
    exact .ok levels _ rest

theorem Arguments.costs {ts : List Token} {es : List Expr} : (a : Arguments ts es) →
    ∀ (levels fuel : Nat) (function : String) (rest : List Token), ts.length < fuel →
      Costs (arguments (Inner.within levels) function fuel (ts ++ rest)) a.levels levels es rest
  | .last p hc, levels, fuel + 1, function, rest, _ => by
    have hp := Costs.enter levels fun l => p.costs l _ (.of_kind _ rest (.inr hc))
    rw [List.append_assoc, ← Nat.max_zero (Arguments.last p hc).levels]
    refine hp.andThen (f := _) ?_
    simp only [hc, reduceCtorEq, if_false, if_true]
    exact .ok levels _ rest
  | @Arguments.more _ _ us _ _ p hc args, levels, fuel + 1, function, rest, hf => by
    have hp := Costs.enter levels fun l => p.costs l _ (.of_kind _ (us ++ rest) (.inl hc))
    have hl : us.length < fuel := by
      simp only [List.length_append, List.length_cons] at hf
      omega
    rw [List.append_assoc]
    refine hp.andThen (f := _) ?_
    simp only [hc, if_true]
    exact (args.costs levels fuel function rest hl).map _

end

end RuleFormula.Grammar
