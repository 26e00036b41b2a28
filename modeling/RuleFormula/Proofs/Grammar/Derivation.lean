import RuleFormula.Proofs.Grammar.Follow
import RuleFormula.Proofs.Grammar.Reader

/-! Whatever is read is a phrase: a reader that succeeds has taken the tokens of a derivation of its
tree, and had the levels for it. -/
set_option autoImplicit false

namespace RuleFormula.Grammar

variable {α : Type}

/-- The tokens that a reader takes off the front, and its result, satisfy `P`. -/
def Takes (P : List Token → α → Prop) (r : Reader α) : Prop :=
  ∀ ts a rest, r ts = .ok a rest → ∃ used, ts = used ++ rest ∧ P used a

/-- With so many levels left, all that is read are phrases. -/
structure Sound (levels : Nat) : Prop where
  read : ∀ tier, Takes (fun ts e => ∃ p : Phrase tier ts e, p.levels ≤ levels)
    (tier.reader (Inner.within levels))
  extend : ∀ {tier next : Tier} (left : Expr), Chains tier next →
    Takes (fun ts e => ∃ c : Chain tier next ts left e, c.levels ≤ levels)
      (extend (Inner.within levels) tier left)

theorem segments_takes : Takes Path segments := by
  intro ts names rest h
  fun_induction segments ts generalizing names with
  | case1 => cases h; exact ⟨[], rfl, .nil⟩
  | case2 => cases h
  | case3 t hp name ts hn ih =>
    obtain ⟨names, hs, rfl⟩ := Outcome.map_eq_ok.1 h
    obtain ⟨used, rfl, path⟩ := ih names hs
    exact ⟨t :: name :: used, rfl, .cons hp hn path⟩
  | case4 => cases h
  | case5 t ts hp => cases h; exact ⟨[], rfl, .nil⟩

theorem segments_stop {ts rest : List Token} {names : List String}
    (h : segments ts = .ok names rest) : ∀ t ∈ rest.head?, t.kind ≠ .dot := by
  fun_induction segments ts generalizing names with
  | case1 => cases h; simp
  | case2 => cases h
  | case3 t hp name ts hn ih =>
    obtain ⟨names, hs, rfl⟩ := Outcome.map_eq_ok.1 h
    exact ih hs
  | case4 => cases h
  | case5 t ts hp => cases h; simpa using hp

theorem path_takes {first : String} {position : Nat} {ts rest : List Token} {e : Expr}
    (h : path first position ts = .ok e rest) :
    ∃ used names, ts = used ++ rest ∧ Path used names ∧ e = .field (first :: names) position := by
  obtain ⟨names, hs, rfl⟩ := Outcome.map_eq_ok.1 h
  obtain ⟨used, rfl, hp⟩ := segments_takes ts names rest hs
  exact ⟨used, names, rfl, hp, rfl⟩

theorem word_takes {t : Token} (hi : t.kind = .identifier) {ts rest : List Token} {e : Expr}
    (h : word t ts = .ok e rest) :
    ∃ used, t :: ts = used ++ rest ∧ ∃ p : Operand used e, p.levels = 0 := by
  cases hk : t.keyword? with
  | none =>
    simp only [word, hk] at h
    cases h
    have hr : ¬ IsReserved t.text := by
      rw [← Keyword.ofText?_eq_none_iff]
      simpa [Token.keyword?, hi] using hk
    exact ⟨[t], rfl, .path hi .nil fun _ => hr, rfl⟩
  | some k =>
    have hw := Token.keyword?_eq_some_iff.1 hk
    cases k with
    | true =>
      simp only [word, hk] at h
      cases h
      exact ⟨[t], rfl, .booleanWord true hw, rfl⟩
    | false =>
      simp only [word, hk] at h
      cases h
      exact ⟨[t], rfl, .booleanWord false hw, rfl⟩
    | null =>
      simp only [word, hk] at h
      cases h
      exact ⟨[t], rfl, .null (.inr hw), rfl⟩
    | and | or | not =>
      simp only [word, hk] at h
      cases h

section

variable {levels : Nat} (below : ∀ l < levels, Sound l)

include below

theorem enter_takes (tier : Tier) :
    Takes (fun ts e => ∃ p : Phrase tier ts e, p.levels + 1 ≤ levels)
      (enter (Inner.within levels) fun i => i.read tier) := by
  intro ts e rest h
  cases levels with
  | zero => cases h
  | succ l =>
    obtain ⟨used, rfl, p, hp⟩ := (below l (Nat.lt_succ_self l)).read tier ts e rest h
    exact ⟨used, rfl, p, by omega⟩

theorem arguments_takes (function : String) (fuel : Nat) :
    Takes (fun ts es => ∃ a : Arguments ts es, a.levels ≤ levels)
      (arguments (Inner.within levels) function fuel) := by
  induction fuel with
  | zero =>
    intro ts es rest h
    cases h
  | succ fuel ih =>
    intro ts es rest h
    obtain ⟨e, us, he, hr⟩ := Outcome.andThen_eq_ok.1 h
    obtain ⟨used, rfl, p, hp⟩ := enter_takes below .or ts e us he
    split at hr
    · cases hr
    next t after =>
      split at hr
      next hk =>
        obtain ⟨es, ha, rfl⟩ := Outcome.map_eq_ok.1 hr
        obtain ⟨args, rfl, a, ha⟩ := ih after es rest ha
        refine ⟨used ++ t :: args, by simp, .more p hk a, ?_⟩
        simp only [Arguments.levels]; omega
      · split at hr
        next hk =>
          cases hr
          exact ⟨used ++ [t], by simp, .last p hk, hp⟩
        · cases hr

theorem call_takes {name opening : Token} (hi : name.kind = .identifier)
    (ho : opening.kind = .leftParen) {ts rest : List Token} {e : Expr}
    (h : call (Inner.within levels) name ts = .ok e rest) :
    ∃ used, name :: opening :: ts = used ++ rest ∧ ∃ p : Operand used e, p.levels ≤ levels := by
  obtain ⟨es, ha, rfl⟩ := Outcome.map_eq_ok.1 h
  unfold argumentList at ha
  split at ha
  · obtain ⟨used, hu, a, ha⟩ := arguments_takes below _ _ _ _ _ ha
    exact ⟨name :: opening :: used, by simp [hu], .call hi ho a, ha⟩
  next t ts =>
    split at ha
    next hc =>
      cases ha
      exact ⟨[name, opening, t], rfl, .emptyCall hi ho hc, Nat.zero_le _⟩
    · obtain ⟨used, hu, a, ha⟩ := arguments_takes below _ _ _ _ _ ha
      exact ⟨name :: opening :: used, by simp [hu], .call hi ho a, ha⟩

theorem named_takes {t : Token} (hi : t.kind = .identifier) {ts rest : List Token} {e : Expr}
    (h : named (Inner.within levels) t ts = .ok e rest) :
    ∃ used, t :: ts = used ++ rest ∧ ∃ p : Operand used e, p.levels ≤ levels := by
  have alone {ts : List Token} (h : word t ts = .ok e rest) :
      ∃ used, t :: ts = used ++ rest ∧ ∃ p : Operand used e, p.levels ≤ levels := by
    obtain ⟨used, hu, p, hp⟩ := word_takes hi h
    exact ⟨used, hu, p, by omega⟩
  unfold named at h
  split at h
  · exact alone h
  next u us =>
    split at h
    next ho => exact call_takes below hi ho h
    · split at h
      next hd =>
        obtain ⟨used, names, hu, hp, rfl⟩ := path_takes h
        cases hp with
        | nil =>
          obtain rfl : u :: us = rest := hu
          obtain ⟨_, hs, -⟩ := Outcome.map_eq_ok.1 h
          exact absurd hd (segments_stop hs u rfl)
        | cons hp hn path =>
          rw [hu]
          exact ⟨_, List.cons_append.symm, .path hi (.cons hp hn path) (by simp), Nat.zero_le _⟩
      · exact alone h

theorem operand_takes : Takes (fun ts e => ∃ p : Operand ts e, p.levels ≤ levels)
    (operand (Inner.within levels)) := by
  intro ts e rest h
  unfold operand at h
  split at h
  · cases h
  next t ts =>
    split at h
    next hk =>
      split at h
      next d hd => cases h; exact ⟨[t], rfl, .number hk hd, Nat.zero_le _⟩
      next => cases h
    next hk => cases h; exact ⟨[t], rfl, .string hk, Nat.zero_le _⟩
    next hk =>
      split at h
      next hw =>
        cases h
        exact ⟨[t], rfl, .boolean true hk (Keyword.ofText?_eq_some_iff.1 hw), Nat.zero_le _⟩
      next hw =>
        cases h
        exact ⟨[t], rfl, .boolean false hk (Keyword.ofText?_eq_some_iff.1 hw), Nat.zero_le _⟩
      next => cases h
    next hk => cases h; exact ⟨[t], rfl, .null (.inl hk), Nat.zero_le _⟩
    next hk => exact named_takes below hk h
    next hk =>
      obtain ⟨name, us, hx, hr⟩ := Outcome.andThen_eq_ok.1 h
      obtain ⟨rfl, hn⟩ := expect_eq_ok hx
      obtain ⟨used, names, rfl, path, rfl⟩ := path_takes hr
      exact ⟨t :: name :: used, rfl, .global hk hn path, Nat.zero_le _⟩
    next hk =>
      obtain ⟨e, us, he, hr⟩ := Outcome.andThen_eq_ok.1 h
      obtain ⟨used, rfl, p, hp⟩ := enter_takes below .or ts e us he
      obtain ⟨close, hx, rfl⟩ := Outcome.map_eq_ok.1 hr
      obtain ⟨rfl, hc⟩ := expect_eq_ok hx
      exact ⟨t :: used ++ [close], by simp, .group hk p hc, hp⟩
    next => cases h

theorem sign_takes : Takes (fun ts e => ∃ p : Phrase .sign ts e, p.levels ≤ levels)
    (sign (Inner.within levels)) := by
  intro ts e rest h
  have bare {ts : List Token} (h : operand (Inner.within levels) ts = .ok e rest) :
      ∃ used, ts = used ++ rest ∧ ∃ p : Phrase .sign used e, p.levels ≤ levels := by
    obtain ⟨used, hu, p, hp⟩ := operand_takes below ts e rest h
    exact ⟨used, hu, .operand p, hp⟩
  unfold sign at h
  split at h
  · exact bare h
  next t ts =>
    split at h
    next hk =>
      obtain ⟨e, he, rfl⟩ := Outcome.map_eq_ok.1 h
      obtain ⟨used, rfl, p, hp⟩ := enter_takes below .sign ts e rest he
      exact ⟨t :: used, rfl, .minus hk p, hp⟩
    · split at h
      next hk =>
        obtain ⟨used, rfl, p, hp⟩ := enter_takes below .sign ts e rest h
        exact ⟨t :: used, rfl, .plus hk p, hp⟩
      · exact bare h

theorem power_takes : Takes (fun ts e => ∃ p : Phrase .power ts e, p.levels ≤ levels)
    (power (Inner.within levels)) := by
  intro ts e rest h
  obtain ⟨base, us, hs, hr⟩ := Outcome.andThen_eq_ok.1 h
  obtain ⟨used, rfl, b, hb⟩ := sign_takes below ts base us hs
  split at hr
  · cases hr
    exact ⟨used, rfl, .sign b, hb⟩
  next t after =>
    split at hr
    · cases hr
      exact ⟨used, rfl, .sign b, hb⟩
    next op ho =>
      obtain ⟨hk, rfl⟩ := operator?_power_iff.1 ho
      obtain ⟨x, hx, rfl⟩ := Outcome.map_eq_ok.1 hr
      obtain ⟨more, rfl, p, hp⟩ := enter_takes below .power after x rest hx
      refine ⟨used ++ t :: more, by simp, .power b hk p, ?_⟩
      simp only [Phrase.levels]; omega

theorem extend_takes {tier next : Tier} (left : Expr) (rule : Chains tier next) :
    Takes (fun ts e => ∃ c : Chain tier next ts left e, c.levels ≤ levels)
      (extend (Inner.within levels) tier left) := by
  intro ts e rest h
  cases ts with
  | nil => cases h; exact ⟨[], rfl, .done, Nat.zero_le _⟩
  | cons t ts =>
    cases ho : tier.operator? t with
    | none =>
      simp only [extend, ho] at h
      cases h
      exact ⟨[], rfl, .done, Nat.zero_le _⟩
    | some op =>
      cases levels with
      | zero => rw [extend_within_zero left ts ho] at h; cases h
      | succ l =>
        rw [extend_within_succ l left ts ho, rule.tighter_eq] at h
        obtain ⟨right, us, hr, hx⟩ := Outcome.andThen_eq_ok.1 h
        obtain ⟨used, rfl, p, hp⟩ := (below l (Nat.lt_succ_self l)).read next ts right us hr
        obtain ⟨more, rfl, c, hc⟩ := (below l (Nat.lt_succ_self l)).extend _ rule us e rest hx
        refine ⟨t :: used ++ more, by simp, .more (.of_operator? rule ho) p c, ?_⟩
        simp only [Chain.levels]; omega

theorem chain_takes {tier next : Tier} (rule : Chains tier next)
    (h : Takes (fun ts e => ∃ p : Phrase next ts e, p.levels ≤ levels)
      (next.reader (Inner.within levels))) :
    Takes (fun ts e => ∃ p : Phrase tier ts e, p.levels ≤ levels)
      (tier.reader (Inner.within levels)) := by
  intro ts e rest hr
  rw [rule.reader_eq] at hr
  obtain ⟨first, us, hf, hx⟩ := Outcome.andThen_eq_ok.1 hr
  obtain ⟨used, rfl, p, hp⟩ := h ts first us hf
  obtain ⟨more, rfl, c, hc⟩ := extend_takes below first rule us e rest hx
  refine ⟨used ++ more, by simp, .chain rule p c, ?_⟩
  simp only [Phrase.levels]; omega

theorem negation_takes (h : Takes (fun ts e => ∃ p : Phrase .comparison ts e, p.levels ≤ levels)
      (comparison (Inner.within levels))) :
    Takes (fun ts e => ∃ p : Phrase .not ts e, p.levels ≤ levels)
      (negation (Inner.within levels)) := by
  intro ts e rest hr
  have bare {ts : List Token} (hr : comparison (Inner.within levels) ts = .ok e rest) :
      ∃ used, ts = used ++ rest ∧ ∃ p : Phrase .not used e, p.levels ≤ levels := by
    obtain ⟨used, hu, p, hp⟩ := h ts e rest hr
    exact ⟨used, hu, .comparison p, hp⟩
  cases ts with
  | nil => exact bare hr
  | cons t ts =>
    by_cases hn : t.negates ts.head?
    · simp only [negation, hn, if_true] at hr
      obtain ⟨e, he, rfl⟩ := Outcome.map_eq_ok.1 hr
      obtain ⟨used, rfl, p, hp⟩ := enter_takes below .not ts e rest he
      obtain ⟨u, us, rfl, -⟩ := p.head
      rcases Token.negates_iff.1 hn with hk | ⟨hw, hn⟩
      · exact ⟨t :: u :: us, rfl, .bang hk p, hp⟩
      · exact ⟨t :: u :: us, rfl, .word hw hn p, hp⟩
    · simp only [negation, hn] at hr
      exact bare hr

end

theorem sound (levels : Nat) : Sound levels := by
  induction levels using Nat.strongRecOn with
  | ind levels below =>
    -- What is inside, and what follows the first operator of a chain, has fewer levels.
    refine ⟨fun tier => ?_, fun left rule => extend_takes below left rule⟩
    induction tier using Tier.loosening_induction with
    | sign => exact sign_takes below
    | power => exact power_takes below
    | chain rule h => exact chain_takes below rule h
    | not h => exact negation_takes below h

end RuleFormula.Grammar
