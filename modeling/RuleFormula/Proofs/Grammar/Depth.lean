import RuleFormula.Proofs.Formula

/-! How deep a tree may be under a limit on nesting. The limit counts levels of reading, and the
levels of a chain are given back at its end, so six tiers of chains pile up on one another: the
depth is not bounded by the limit, but by a quadratic function of it. -/
set_option autoImplicit false

namespace RuleFormula.Grammar

def Tier.chains : Tier → Nat
  | or => 6
  | and => 5
  | not | comparison => 4
  | concat => 3
  | sum => 2
  | product => 1
  | power | sign => 0

/-- The depth of the deepest power in so many levels: an exponent and a call go around an expression
with one level less. -/
def powerDepth : Nat → Nat
  | 0 => 1
  | levels + 1 => powerDepth levels + 6 * levels + 2

/-- The depth of the deepest tree that a tier gives in so many levels. -/
def Tier.deepest (tier : Tier) (levels : Nat) : Nat :=
  match tier, levels with
  | sign, 0 => 1
  | sign, l + 1 => powerDepth l + 6 * l + 1
  | _, _ => powerDepth levels + tier.chains * levels

theorem Tier.deepest_sign_le (levels : Nat) : Tier.sign.deepest levels ≤ powerDepth levels := by
  cases levels <;> simp only [deepest, powerDepth] <;> omega

theorem Chains.deepest_eq {tier next : Tier} (rule : Chains tier next) (levels : Nat) :
    tier.deepest levels = next.deepest levels + levels := by
  cases rule <;> simp only [Tier.deepest, Tier.chains] <;> omega

mutual

theorem Phrase.depth_le {tier : Tier} {ts : List Token} {e : Expr} : (p : Phrase tier ts e) →
    ∀ levels : Nat, p.levels ≤ levels → e.depth ≤ tier.deepest levels
  | .chain rule head tail, levels, h => by
    simp only [Phrase.levels] at h
    have hh := head.depth_le levels (by omega)
    have ht := tail.depth_le levels (by omega) _ (Nat.le_refl _) hh
    rw [rule.deepest_eq]
    omega
  | .bang _ p, l + 1, h | .word _ _ p, l + 1, h => by
    have hp := p.depth_le l (Nat.le_of_succ_le_succ h)
    simp only [Tier.deepest, Tier.chains, powerDepth, Expr.depth] at hp ⊢
    omega
  | .comparison p, levels, h => p.depth_le levels h
  | .power b _ x, levels, h => by
    simp only [Phrase.levels] at h
    obtain ⟨l, rfl⟩ : ∃ l, levels = l + 1 := ⟨levels - 1, by omega⟩
    have hb := b.depth_le (l + 1) (by omega)
    have hx := x.depth_le l (by omega)
    simp only [Tier.deepest, Tier.chains, powerDepth, Expr.depth] at hb hx ⊢
    omega
  | .sign p, levels, h => by
    have hp := p.depth_le levels h
    have hs := Tier.deepest_sign_le levels
    simp only [Tier.deepest, Tier.chains]
    omega
  | .minus _ p, l + 1, h => by
    have hp := p.depth_le l (Nat.le_of_succ_le_succ h)
    have hs := Tier.deepest_sign_le l
    simp only [Tier.deepest, Expr.depth]
    omega
  | .plus _ p, l + 1, h => by
    have hp := p.depth_le l (Nat.le_of_succ_le_succ h)
    have hs := Tier.deepest_sign_le l
    simp only [Tier.deepest]
    omega
  | .operand p, levels, h => p.depth_le levels h

theorem Chain.depth_le {tier next : Tier} {ts : List Token} {left e : Expr} :
    (c : Chain tier next ts left e) → ∀ levels : Nat, c.levels ≤ levels →
      ∀ depth : Nat, next.deepest levels ≤ depth → left.depth ≤ depth → e.depth ≤ depth + c.levels
  | .done, _, _, depth, _, hl => hl
  | .more _ p tail, levels, h, depth, hd, hl => by
    -- The left side is one node deeper behind the operator, which has taken a level.
    simp only [Chain.levels] at h ⊢
    have hp := p.depth_le levels (by omega)
    have ht := tail.depth_le levels (by omega) (depth + 1) (by omega)
      (by simp only [Expr.depth]; omega)
    omega

theorem Operand.depth_le {ts : List Token} {e : Expr} : (p : Operand ts e) →
    ∀ levels : Nat, p.levels ≤ levels → e.depth ≤ Tier.sign.deepest levels
  | .number .., levels, _ | .string .., levels, _ | .boolean .., levels, _
  | .booleanWord .., levels, _ | .null .., levels, _ | .path .., levels, _
  | .global .., levels, _ | .emptyCall .., levels, _ => by
    cases levels <;> simp [Expr.depth, Expr.depthList, Tier.deepest]
  | .call _ _ args, levels, h => by
    have ha := args.depth_le levels h
    simp only [Expr.depth]
    omega
  | .group _ p _, l + 1, h => by
    have hp := p.depth_le l (Nat.le_of_succ_le_succ h)
    simp only [Tier.deepest, Tier.chains] at hp ⊢
    omega

theorem Arguments.depth_le {ts : List Token} {es : List Expr} : (a : Arguments ts es) →
    ∀ levels : Nat, a.levels ≤ levels → Expr.depthList es < Tier.sign.deepest levels
  | .last p _, l + 1, h => by
    have hp := p.depth_le l (Nat.le_of_succ_le_succ h)
    simp only [Tier.deepest, Tier.chains, Expr.depthList] at hp ⊢
    omega
  | .more p _ rest, levels, h => by
    simp only [Arguments.levels] at h
    obtain ⟨l, rfl⟩ : ∃ l, levels = l + 1 := ⟨levels - 1, by omega⟩
    have hp := p.depth_le l (by omega)
    have hr := rest.depth_le (l + 1) (by omega)
    simp only [Tier.deepest, Tier.chains, Expr.depthList] at hp hr ⊢
    omega

end

theorem powerDepth_eq (levels : Nat) : powerDepth levels + levels = 3 * (levels * levels) + 1 := by
  induction levels with
  | zero => rfl
  | succ l ih =>
    simp only [powerDepth, Nat.add_mul, Nat.mul_add] at ih ⊢
    omega

theorem Phrase.depth_le_limit {ts : List Token} {e : Expr} (p : Phrase .or ts e) {limit : Nat}
    (h : p.levels < limit) : e.depth ≤ 3 * (limit * limit) - limit - 1 := by
  obtain ⟨l, rfl⟩ : ∃ l, limit = l + 1 := ⟨limit - 1, by omega⟩
  have hp := p.depth_le l (Nat.le_of_lt_succ h)
  have hl := powerDepth_eq l
  simp only [Tier.deepest, Tier.chains, Nat.add_mul, Nat.mul_add] at hp hl ⊢
  omega

theorem exists_null (tier : Tier) : ∃ ts, ∃ p : Phrase tier ts (.literal .null 0),
    p.levels = 0 ∧ ∀ t ∈ ts, t.kind ≠ .endOfInput := by
  let null : Token := ⟨.null, "NULL", .start⟩
  obtain ⟨p, hp⟩ := (Operand.null (t := null) (.inl rfl)).exists_phrase tier
  exact ⟨[null], p, hp, by simp [null]⟩

theorem exists_sums (n : Nat) (left : Expr) (h : 1 ≤ left.depth) :
    ∃ ts e, ∃ c : Chain .sum .product ts left e,
      c.levels = n ∧ e.depth = left.depth + n ∧ ∀ t ∈ ts, t.kind ≠ .endOfInput := by
  induction n generalizing left with
  | zero => exact ⟨[], left, .done, rfl, rfl, by simp⟩
  | succ n ih =>
    let plus : Token := ⟨.plus, "+", .start⟩
    obtain ⟨null, operand, ho, hn⟩ := exists_null .product
    let sum : Expr := .binary .add left (.literal .null 0) plus.location.offset
    have hd : sum.depth = left.depth + 1 := by
      simp only [sum, Expr.depth]; omega
    obtain ⟨ts, e, c, hc, he, hts⟩ := ih sum (by omega)
    refine ⟨plus :: null ++ ts, e, .more (.add rfl) operand c, ?_, by omega, ?_⟩
    · simp only [Chain.levels, ho, hc]
      omega
    · intro t ht
      simp only [List.cons_append, List.mem_cons, List.mem_append] at ht
      rcases ht with rfl | ht | ht
      · decide
      · exact hn t ht
      · exact hts t ht

/-- A sum in front of a comparison: the levels of the sum are given back before the comparison takes
its own, so that the tree is deeper than the limit it needs. -/
theorem exists_phrase_depth_gt (n : Nat) (h : 1 ≤ n) :
    ∃ ts e, ∃ p : Phrase .or ts e,
      p.levels = n ∧ e.depth = n + 2 ∧ ∀ t ∈ ts, t.kind ≠ .endOfInput := by
  let equals : Token := ⟨.equals, "=", .start⟩
  obtain ⟨us, null, hl, hn⟩ := exists_null .product
  obtain ⟨vs, right, hr, hm⟩ := exists_null .concat
  obtain ⟨ts, e, c, hc, he, hts⟩ := exists_sums n (.literal .null 0) (Nat.le_refl 1)
  obtain ⟨left, hleft⟩ := (Phrase.chain .sum null c).exists_of_rank_le .concat (by decide)
  obtain ⟨p, hp⟩ := (Phrase.chain .comparison left
    (.more (t := equals) (.equal rfl) right .done)).exists_of_rank_le .or (by decide)
  refine ⟨_, _, p, ?_, ?_, ?_⟩
  · simp only [Phrase.levels, Chain.levels] at hleft hp
    omega
  · simp only [Expr.depth] at he ⊢
    omega
  · intro t ht
    simp only [List.mem_cons, List.mem_append, List.append_nil] at ht
    rcases ht with (ht | ht) | rfl | ht
    · exact hn t ht
    · exact hts t ht
    · decide
    · exact hm t ht

end RuleFormula.Grammar

namespace RuleFormula

open Grammar

namespace TokenStream

theorem depth_le_of_readFormula {s : TokenStream} {limit : Nat} {e : Expr}
    (h : (s.readFormula limit).1 = .ok e) : e.depth ≤ 3 * (limit * limit) - limit - 1 := by
  obtain ⟨p, hp⟩ := readFormula_eq_ok_iff.1 h
  exact p.depth_le_limit hp

theorem depth_le_of_readExpression {s : TokenStream} {limit : Nat} {e : Expr}
    (h : (s.readExpression limit).1 = .ok e) : e.depth ≤ 3 * (limit * limit) - limit - 1 := by
  obtain ⟨ts, p, hp⟩ := readExpression_eq_ok h
  exact p.depth_le_limit hp

theorem readExpression_of_readFormula {s : TokenStream} {limit : Nat} {e : Expr}
    (h : (s.readFormula limit).1 = .ok e) : (s.readExpression limit).1 = .ok e := by
  obtain ⟨p, hp⟩ := readFormula_eq_ok_iff.1 h
  have hx := (expression_costs p limit (.nil .or)).1 hp
  rw [List.append_nil] at hx
  exact run_eq_ok_iff.2 ⟨[], hx⟩

theorem exists_readFormula_depth_gt {limit : Nat} (h : 2 ≤ limit) :
    ∃ ts s e, ofTokens ts = .ok s ∧ (s.readFormula limit).1 = .ok e ∧ limit < e.depth := by
  obtain ⟨body, e, p, hp, he, hb⟩ := exists_phrase_depth_gt (limit - 1) (by omega)
  have hs := @ofTokens_append body (.atEnd .start) rfl hb
  exact ⟨_, _, e, hs, readFormula_eq_ok_iff.2 ⟨p, by omega⟩, by omega⟩

theorem limit_le_one_of_depth_le {limit : Nat} (h : ∀ ts s e, ofTokens ts = .ok s →
    (s.readFormula limit).1 = .ok e → e.depth ≤ limit) : limit ≤ 1 := by
  by_cases hl : limit ≤ 1
  · exact hl
  · obtain ⟨ts, s, e, hs, hr, hd⟩ := exists_readFormula_depth_gt (Nat.lt_of_not_le hl)
    exact absurd (h ts s e hs hr) (Nat.not_le_of_lt hd)

end TokenStream

/-- Which limits bound the depth of all trees, which bound holds for every limit, and when a formula
keeps to a limit: if the limit refuses it, or if its tree is no deeper. -/
theorem depth_le_limit_iff (limit : Nat) :
    ((∀ ts s e, TokenStream.ofTokens ts = .ok s → (s.readFormula limit).1 = .ok e →
      e.depth ≤ limit) ↔ limit ≤ 1) ∧
    ((∀ ts s e, TokenStream.ofTokens ts = .ok s → (s.readExpression limit).1 = .ok e →
      e.depth ≤ limit) ↔ limit ≤ 1) ∧
    (∀ (s : TokenStream) e, (s.readFormula limit).1 = .ok e ∨ (s.readExpression limit).1 = .ok e →
      e.depth ≤ 3 * (limit * limit) - limit - 1) ∧
    ∀ (s : TokenStream) e (p : Phrase .or s.body e),
      (∀ x, (s.readFormula limit).1 = .ok x → x.depth ≤ limit) ↔
        limit ≤ p.levels ∨ e.depth ≤ limit := by
  have small {d : Nat} (hl : limit ≤ 1) (hd : d ≤ 3 * (limit * limit) - limit - 1) : d ≤ limit := by
    obtain rfl | rfl : limit = 0 ∨ limit = 1 := by omega
    · exact hd
    · exact hd
  refine ⟨⟨fun h => ?_, fun hl ts s e _ hr => ?_⟩, ⟨fun h => ?_, fun hl ts s e _ hr => ?_⟩, ?_, ?_⟩
  · exact TokenStream.limit_le_one_of_depth_le h
  · exact small hl (TokenStream.depth_le_of_readFormula hr)
  · refine TokenStream.limit_le_one_of_depth_le fun ts s e hs hr => ?_
    exact h ts s e hs (TokenStream.readExpression_of_readFormula hr)
  · exact small hl (TokenStream.depth_le_of_readExpression hr)
  · intro s e hr
    rcases hr with hr | hr
    · exact TokenStream.depth_le_of_readFormula hr
    · exact TokenStream.depth_le_of_readExpression hr
  · intro s e p
    by_cases hp : p.levels < limit
    · have hr := TokenStream.readFormula_eq_ok_iff.2 ⟨p, hp⟩
      simp [hr, Nat.not_le_of_lt hp]
    · obtain ⟨l, hr⟩ := TokenStream.readFormula_of_levels_ge p (Nat.le_of_not_lt hp)
      simp [hr, Nat.le_of_not_lt hp]

/-- The sum gives its level back before the comparison takes one. -/
theorem depth_gt_limit_sum_equals : ∃ e, parseFormula 2 "1 + 1 = 1" = .ok e ∧ 2 < e.depth := by
  have h : (parseFormula 2 "1 + 1 = 1").toOption.map Expr.depth = some 3 := by decide +kernel
  obtain ⟨e, he, hd⟩ := exists_ok_of_map h
  exact ⟨e, he, by omega⟩

end RuleFormula
