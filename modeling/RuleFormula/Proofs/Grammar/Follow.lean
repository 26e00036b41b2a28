import RuleFormula.Proofs.Grammar.Phrase

set_option autoImplicit false

namespace RuleFormula.Grammar

theorem Tier.operator?_eq_some_iff {tier : Tier} {t : Token} {op : BinaryOp} :
    tier.operator? t = some op ↔ t.binaryOp? = some op ∧ op.tier = tier := by
  simp [operator?, Option.filter_eq_some_iff]

theorem Joins.operator?_eq_some {t : Token} {tier : Tier} {op : BinaryOp} (h : Joins t tier op) :
    tier.operator? t = some op := by
  rw [Tier.operator?_eq_some_iff]
  cases h with
  | or h =>
    rcases h with h | h
    · simp [Token.binaryOp?, h, BinaryOp.tier]
    · obtain ⟨hi, hk⟩ := (Token.isWord_spelling .or).1 h
      simp [Token.binaryOp?, hi, hk, BinaryOp.tier]
  | and h =>
    rcases h with h | h
    · simp [Token.binaryOp?, h, BinaryOp.tier]
    · obtain ⟨hi, hk⟩ := (Token.isWord_spelling .and).1 h
      simp [Token.binaryOp?, hi, hk, BinaryOp.tier]
  | _ h => simp [Token.binaryOp?, h, BinaryOp.tier]

theorem Joins.of_operator? {t : Token} {tier next : Tier} {op : BinaryOp} (rule : Chains tier next)
    (h : tier.operator? t = some op) : Joins t tier op := by
  obtain ⟨ho, rfl⟩ := Tier.operator?_eq_some_iff.1 h
  unfold Token.binaryOp? at ho
  split at ho
  next hk => cases ho; exact .add hk
  next hk => cases ho; exact .subtract hk
  next hk => cases ho; exact .multiply hk
  next hk => cases ho; exact .divide hk
  next hk => cases ho; cases rule
  next hk => cases ho; exact .modulo hk
  next hk => cases ho; exact .equal hk
  next hk => cases ho; exact .notEqual hk
  next hk => cases ho; exact .lessThan hk
  next hk => cases ho; exact .lessEqual hk
  next hk => cases ho; exact .greaterThan hk
  next hk => cases ho; exact .greaterEqual hk
  next hk => cases ho; exact .and (.inl hk)
  next hk => cases ho; exact .or (.inl hk)
  next hk => cases ho; exact .concat hk
  next hk =>
    split at ho
    next hw => cases ho; exact .and (.inr ((Token.isWord_spelling .and).2 ⟨hk, hw⟩))
    next hw => cases ho; exact .or (.inr ((Token.isWord_spelling .or).2 ⟨hk, hw⟩))
    next => cases ho
  next => cases ho

theorem operator?_power_iff {t : Token} {op : BinaryOp} :
    Tier.power.operator? t = some op ↔ t.kind = .caret ∧ op = .power := by
  rw [Tier.operator?_eq_some_iff]
  constructor
  · intro hx
    obtain ⟨ho, ht⟩ := hx
    unfold Token.binaryOp? at ho
    split at ho
    case h_5 hk => exact ⟨hk, (Option.some.inj ho).symm⟩
    case h_16 => split at ho <;> cases ho <;> cases ht
    all_goals cases ho <;> cases ht
  · intro hx
    obtain ⟨hk, rfl⟩ := hx
    simp [Token.binaryOp?, hk, BinaryOp.tier]

/-- Whether a phrase of a tier ends in front of these tokens: the next one does not turn a name into
a call or a path, and is no operator of the tier or of a tighter one. -/
def Tier.Stops (tier : Tier) (ts : List Token) : Prop :=
  ∀ t ∈ ts.head?, t.kind ≠ .leftParen ∧ t.kind ≠ .dot ∧
    ∀ op, t.binaryOp? = some op → op.tier.rank < tier.rank

namespace Tier.Stops

theorem nil (tier : Tier) : tier.Stops [] := by simp [Tier.Stops]

theorem mono {tier tighter : Tier} {ts : List Token} (h : tier.Stops ts)
    (hr : tier.rank ≤ tighter.rank) : tighter.Stops ts := by
  intro t ht
  obtain ⟨hp, hd, ho⟩ := h t ht
  exact ⟨hp, hd, fun op h => Nat.lt_of_lt_of_le (ho op h) hr⟩

theorem operator?_eq_none {tier tighter : Tier} {t : Token} {ts : List Token}
    (h : tier.Stops (t :: ts)) (hr : tier.rank ≤ tighter.rank) : tighter.operator? t = none := by
  cases ho : tighter.operator? t with
  | none => rfl
  | some op =>
    obtain ⟨hop, rfl⟩ := Tier.operator?_eq_some_iff.1 ho
    have hlt := (h t (by simp)).2.2 op hop
    omega

theorem of_joins {t : Token} {tier next : Tier} {op : BinaryOp} (rule : Chains tier next)
    (h : Joins t tier op) (ts : List Token) : next.Stops (t :: ts) := by
  obtain ⟨hop, ht⟩ := Tier.operator?_eq_some_iff.1 h.operator?_eq_some
  have hr := rule.rank_lt
  intro u hu
  cases hu
  refine ⟨?_, ?_, ?_⟩
  · intro hk
    simp [Token.binaryOp?, hk] at hop
  · intro hk
    simp [Token.binaryOp?, hk] at hop
  · intro op' hop'
    rw [hop] at hop'
    cases hop'
    rwa [ht]

theorem of_kind {t : Token} (tier : Tier) (ts : List Token)
    (h : t.kind = .comma ∨ t.kind = .rightParen) : tier.Stops (t :: ts) := by
  intro u hu
  cases hu
  rcases h with h | h <;> simp [Token.binaryOp?, h]

theorem of_caret {t : Token} (ts : List Token) (h : t.kind = .caret) :
    Tier.sign.Stops (t :: ts) := by
  intro u hu
  cases hu
  simp [Token.binaryOp?, h, BinaryOp.tier, Tier.rank]

end Tier.Stops

theorem Token.negates_iff {t : Token} {next : Option Token} : t.negates next ↔
    t.kind = .not ∨ t.isWord "NOT" ∧ ∀ n ∈ next, n.kind ≠ .leftParen ∧ n.kind ≠ .dot := by
  have hw : t.isWord "NOT" ↔ t.keyword? = some .not :=
    (Token.keyword?_eq_some_iff (k := .not)).symm
  rw [hw]
  cases next <;> simp [Token.negates]

theorem Token.negates_of_kind {t : Token} (next : Option Token) (h : t.kind ≠ .not)
    (hi : t.kind ≠ .identifier) : t.negates next = false := by
  simp [Token.negates, Token.keyword?, h, hi]

theorem Token.negates_of_word {t : Token} (next : Option Token) {k : Keyword}
    (h : t.isWord k.spelling) (hk : k ≠ .not) : t.negates next = false := by
  have ht := Token.keyword?_eq_some_iff.2 h
  have hi := ((Token.isWord_spelling k).1 h).1
  simp [Token.negates, ht, hi, hk]

/-- In front of a parenthesis or a point, a word is never an operator. -/
theorem Token.negates_of_next {t next : Token} (h : t.kind = .identifier)
    (hn : next.kind = .leftParen ∨ next.kind = .dot) : t.negates (some next) = false := by
  rcases hn with hn | hn <;> simp [Token.negates, h, hn]

theorem Operand.head {ts : List Token} {e : Expr} (p : Operand ts e) :
    ∃ t us, ts = t :: us ∧ t.kind ≠ .rightParen ∧ t.kind ≠ .minus ∧ t.kind ≠ .plus ∧
      ∀ rest, t.negates (us ++ rest).head? = false := by
  cases p with
  | number h | string h | boolean _ h =>
    exact ⟨_, _, rfl, by simp [h], by simp [h], by simp [h],
      fun _ => Token.negates_of_kind _ (by simp [h]) (by simp [h])⟩
  | booleanWord b hw =>
    obtain ⟨k, hs, hk⟩ : ∃ k : Keyword,
        k.spelling = (if b then "TRUE" else "FALSE") ∧ k ≠ .not := by
      cases b
      · exact ⟨.false, rfl, by decide⟩
      · exact ⟨.true, rfl, by decide⟩
    rw [← hs] at hw
    have hi := ((Token.isWord_spelling k).1 hw).1
    exact ⟨_, _, rfl, by simp [hi], by simp [hi], by simp [hi],
      fun _ => Token.negates_of_word _ hw hk⟩
  | null h =>
    rcases h with h | hw
    · exact ⟨_, _, rfl, by simp [h], by simp [h], by simp [h],
        fun _ => Token.negates_of_kind _ (by simp [h]) (by simp [h])⟩
    · have hi := ((Token.isWord_spelling .null).1 hw).1
      exact ⟨_, _, rfl, by simp [hi], by simp [hi], by simp [hi],
        fun _ => Token.negates_of_word (k := .null) _ hw (by decide)⟩
  | @path t ts names h path hr =>
    refine ⟨_, _, rfl, by simp [h], by simp [h], by simp [h], fun rest => ?_⟩
    cases path with
    | nil =>
      have hk := Keyword.ofText?_eq_none_iff.2 (hr rfl)
      simp [Token.negates, Token.keyword?, h, hk]
    | cons hp => exact Token.negates_of_next h (.inr hp)
  | «global» h | group h =>
    exact ⟨_, _, rfl, by simp [h], by simp [h], by simp [h],
      fun _ => Token.negates_of_kind _ (by simp [h]) (by simp [h])⟩
  | emptyCall h ho | call h ho =>
    exact ⟨_, _, rfl, by simp [h], by simp [h], by simp [h],
      fun _ => Token.negates_of_next h (.inl ho)⟩

theorem Phrase.head {tier : Tier} {ts : List Token} {e : Expr} :
    (p : Phrase tier ts e) → ∃ t us, ts = t :: us ∧ t.kind ≠ .rightParen ∧
      (Tier.not.rank < tier.rank → ∀ rest, t.negates (us ++ rest).head? = false)
  | .chain rule h _ => by
    obtain ⟨t, us, rfl, hp, hn⟩ := h.head
    refine ⟨t, _, List.cons_append, hp, fun ht rest => ?_⟩
    have hr := rule.rank_lt
    rw [List.append_assoc]
    exact hn (by omega) _
  | .bang h _ => ⟨_, _, rfl, by simp [h], fun ht => absurd ht (by decide)⟩
  | .word h _ _ => by
    have hi := ((Token.isWord_spelling .not).1 h).1
    exact ⟨_, _, rfl, by simp [hi], fun ht => absurd ht (by decide)⟩
  | .comparison p => by
    obtain ⟨t, us, rfl, hp, -⟩ := p.head
    exact ⟨t, us, rfl, hp, fun ht => absurd ht (by decide)⟩
  | .power b _ _ => by
    obtain ⟨t, us, rfl, hp, hn⟩ := b.head
    refine ⟨t, _, List.cons_append, hp, fun _ rest => ?_⟩
    rw [List.append_assoc]
    exact hn (by decide) _
  | .sign p => by
    obtain ⟨t, us, rfl, hp, hn⟩ := p.head
    exact ⟨t, us, rfl, hp, fun _ => hn (by decide)⟩
  | .minus h _ | .plus h _ =>
    ⟨_, _, rfl, by simp [h], fun _ _ => Token.negates_of_kind _ (by simp [h]) (by simp [h])⟩
  | .operand p => by
    obtain ⟨t, us, rfl, hp, -, -, hn⟩ := p.head
    exact ⟨t, us, rfl, hp, fun _ => hn⟩

theorem Operand.head_ne_dot {ts : List Token} {e : Expr} (p : Operand ts e) :
    ∀ t ∈ ts.head?, t.kind ≠ .dot := by
  cases p with
  | number h | string h | boolean _ h | path h | «global» h | emptyCall h | call h | group h =>
    simp [h]
  | booleanWord b hw => simp [Token.kind_of_isWord hw]
  | null h =>
    rcases h with h | hw
    · simp [h]
    · simp [Token.kind_of_isWord hw]

theorem Phrase.head_ne_dot {tier : Tier} {ts : List Token} {e : Expr} :
    Phrase tier ts e → ∀ t ∈ ts.head?, t.kind ≠ .dot
  | .chain _ head _ => by
    have h := head.head_ne_dot
    obtain ⟨t, us, rfl, -⟩ := head.head
    exact h
  | .bang h _ | .minus h _ | .plus h _ => by simp [h]
  | .word h _ _ => by simp [Token.kind_of_isWord h]
  | .comparison p | .sign p => p.head_ne_dot
  | .power b _ _ => by
    have h := b.head_ne_dot
    obtain ⟨t, us, rfl, -⟩ := b.head
    exact h
  | .operand p => p.head_ne_dot

end RuleFormula.Grammar
