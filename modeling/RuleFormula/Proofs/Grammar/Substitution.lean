import Mathlib.Data.List.Nodup
import RuleFormula.Proofs.Expr.Context
import RuleFormula.Proofs.Grammar.Follow
import RuleFormula.Proofs.Grammar.Introduced
import RuleFormula.Proofs.Grammar.Stream

/-! Operands in the place of operands. A derivation that takes a token as an operand by
itself has a hole at that token, and other operands are derived in the hole, with the tree
around it unchanged. -/
set_option autoImplicit false

namespace RuleFormula.Grammar

theorem append_eq_append_cons {α : Type} {as bs front back : List α} {x : α}
    (h : as ++ bs = front ++ x :: back) :
    (∃ more, as = front ++ x :: more ∧ back = more ++ bs) ∨
      ∃ more, front = as ++ more ∧ bs = more ++ x :: back := by
  rcases List.append_eq_append_iff.1 h with ⟨more, rfl, hbs⟩ | ⟨more, rfl, hbs⟩
  · exact .inr ⟨more, rfl, hbs⟩
  · cases more with
    | nil => exact .inr ⟨[], by simp, hbs.symm⟩
    | cons y more =>
      obtain ⟨rfl, rfl⟩ := List.cons.inj hbs
      exact .inl ⟨more, rfl, rfl⟩

theorem cons_eq_append_cons {α : Type} {y x : α} {as front back : List α}
    (h : y :: as = front ++ x :: back) :
    (front = [] ∧ y = x ∧ as = back) ∨ ∃ more, front = y :: more ∧ as = more ++ x :: back := by
  cases front with
  | nil =>
    obtain ⟨rfl, rfl⟩ := List.cons.inj h
    exact .inl ⟨rfl, rfl, rfl⟩
  | cons z more =>
    obtain ⟨rfl, rfl⟩ := List.cons.inj h
    exact .inr ⟨more, rfl, rfl⟩

/-- Where a name is a field path of its own, and not part of a longer one or the name of a call. -/
structure Alone (front : List Token) (t : Token) (back : List Token) : Prop where
  before : t.kind = .identifier → ∀ u ∈ front.getLast?, u.kind ≠ .fieldMarker ∧ u.kind ≠ .dot
  after : t.kind = .identifier → ∀ u ∈ back.head?, u.kind ≠ .leftParen ∧ u.kind ≠ .dot

namespace Alone

variable {front back as bs : List Token} {t : Token}

theorem of_append (h : Alone (as ++ front) t back) : Alone front t back := by
  refine ⟨fun ht u hu => h.before ht u ?_, h.after⟩
  rw [List.getLast?_append, hu, Option.some_or]
  rfl

theorem of_cons {a : Token} (h : Alone (a :: front) t back) : Alone front t back :=
  @of_append front back [a] t h

theorem of_append_back (h : Alone front t (back ++ bs)) : Alone front t back := by
  refine ⟨h.before, fun ht u hu => h.after ht u ?_⟩
  rw [List.head?_append, hu, Option.some_or]
  rfl

end Alone

/-- Behind the word that negates, a parenthesis would make a call of it. -/
def Fits (front us : List Token) : Prop :=
  ∀ t ∈ front.getLast?, t.isWord "NOT" → ∀ u ∈ us.head?, u.kind ≠ .leftParen

theorem Fits.of_append {as front us : List Token} (h : Fits (as ++ front) us) : Fits front us := by
  intro t ht
  refine h t ?_
  rw [List.getLast?_append, ht, Option.some_or]
  rfl

theorem Fits.of_cons {a : Token} {front us : List Token} (h : Fits (a :: front) us) :
    Fits front us :=
  @of_append [a] front us h

/-- `e` has a hole where `n` stands, and with any operand in the place of the token between `front`
and `back`, what is derived is the tree with that operand in the hole. -/
def Holds (D : List Token → Expr → Type) (front back : List Token) (n e : Expr) : Prop :=
  ∃ c : Expr.Context, e = c.fill n ∧ ∀ us a, Operand us a → Fits front us →
    Nonempty (D (front ++ us ++ back) (c.fill a))

theorem Holds.map {D D' : List Token → Expr → Type} {front back front' back' : List Token}
    {n e : Expr} (h : Holds D front back n e) (k : Expr.Context)
    (hf : ∀ us a x, Operand us a → Fits front' us → Fits front us ∧
      (D (front ++ us ++ back) x → Nonempty (D' (front' ++ us ++ back') (k.fill x)))) :
    Holds D' front' back' n (k.fill e) := by
  obtain ⟨c, rfl, hc⟩ := h
  refine ⟨k.comp c, by simp, fun us a ha hfit => ?_⟩
  obtain ⟨hfit', hd⟩ := hf us a (c.fill a) ha hfit
  obtain ⟨d⟩ := hc us a ha hfit'
  rw [Expr.Context.fill_comp]
  exact hd d

section

variable {t : Token} {n : Expr}

theorem Operand.eq_of_single {e : Expr} (o : Operand [t] n) (p : Operand [t] e) : e = n := by
  have ho := (o.costs (o.levels + p.levels) [] (.nil _)).1 (Nat.le_add_right _ _)
  have hp := (p.costs (o.levels + p.levels) [] (.nil _)).1 (Nat.le_add_left _ _)
  rw [ho] at hp
  cases hp
  rfl

def operandKinds : List Token.Kind := [.number, .string, .boolean, .null, .identifier]

theorem Operand.kind_of_single (o : Operand [t] n) : t.kind ∈ operandKinds := by
  generalize hs : [t] = ts at o
  cases o with
  | number h | string h | boolean _ h | path h => cases hs; simp [operandKinds, h]
  | booleanWord _ hw => cases hs; simp [operandKinds, Token.kind_of_isWord hw]
  | null h =>
    cases hs
    rcases h with h | hw
    · simp [operandKinds, h]
    · simp [operandKinds, Token.kind_of_isWord hw]
  | group =>
    have hl := congrArg List.length hs
    simp at hl
  | «global» | emptyCall | call => cases hs

theorem Operand.keyword?_of_single (o : Operand [t] n) :
    t.keyword? ≠ some .and ∧ t.keyword? ≠ some .or ∧ t.keyword? ≠ some .not := by
  generalize hs : [t] = ts at o
  cases o with
  | number h | string h | boolean _ h => cases hs; simp [Token.keyword?, h]
  | booleanWord b hw =>
    cases hs
    cases b with
    | false => simp [Token.keyword?_eq_some_iff (k := .false).2 hw]
    | true => simp [Token.keyword?_eq_some_iff (k := .true).2 hw]
  | null h =>
    cases hs
    rcases h with h | hw
    · simp [Token.keyword?, h]
    · simp [Token.keyword?_eq_some_iff (k := .null).2 hw]
  | path h path hr =>
    cases hs
    cases path
    simp [Token.keyword?, h, Keyword.ofText?_eq_none_iff.2 (hr rfl)]
  | group =>
    have hl := congrArg List.length hs
    simp at hl
  | «global» | emptyCall | call => cases hs

theorem Operand.not_joins (o : Operand [t] n) {tier : Tier} {op : BinaryOp} :
    ¬ Joins t tier op := by
  obtain ⟨hand, hor, -⟩ := o.keyword?_of_single
  have hk := o.kind_of_single
  intro h
  cases h with
  | and h =>
    rcases h with h | hw
    · simp [operandKinds, h] at hk
    · exact hand (Token.keyword?_eq_some_iff (k := .and).2 hw)
  | or h =>
    rcases h with h | hw
    · simp [operandKinds, h] at hk
    · exact hor (Token.keyword?_eq_some_iff (k := .or).2 hw)
  | _ h => simp [operandKinds, h] at hk

theorem Operand.not_isWord (o : Operand [t] n) : ¬ t.isWord "NOT" := fun hw =>
  o.keyword?_of_single.2.2 (Token.keyword?_eq_some_iff (k := .not).2 hw)

variable {front back : List Token}

theorem Operand.exists_behind (o : Operand [t] n) {u : Token} {us : List Token}
    (hu : u.kind ∉ operandKinds) (h : u :: us = front ++ t :: back) :
    ∃ more, front = u :: more ∧ us = more ++ t :: back := by
  obtain ⟨-, rfl, -⟩ | hmore := cons_eq_append_cons h
  · exact absurd o.kind_of_single hu
  · exact hmore

theorem Operand.not_last (o : Operand [t] n) {u : Token} (hu : u.kind ∉ operandKinds) :
    [u] ≠ front ++ t :: back := by
  intro h
  obtain ⟨more, -, hmore⟩ := o.exists_behind hu h
  simp at hmore

theorem Operand.holds_single {u : Token} {e : Expr} (o : Operand [t] n) (p : Operand [u] e)
    (h : [u] = front ++ t :: back) : Holds Operand front back n e := by
  obtain ⟨rfl, rfl, rfl⟩ | ⟨more, -, hmore⟩ := cons_eq_append_cons h
  · refine ⟨.hole, o.eq_of_single p, fun us a ha _ => ⟨?_⟩⟩
    rwa [List.nil_append, List.append_nil]
  · simp at hmore

theorem Path.not_alone {ts : List Token} {names : List String} (path : Path ts names)
    {first : Token} (o : Operand [t] n) (h : ts = front ++ t :: back) :
    ¬ Alone (first :: front) t back := by
  intro halone
  induction path generalizing first front with
  | nil => simp at h
  | @cons point name ts names hp hn path ih =>
    obtain ⟨more, rfl, hmore⟩ := o.exists_behind (by rw [hp]; decide) h
    obtain ⟨rfl, rfl, -⟩ | ⟨rest, rfl, hrest⟩ := cons_eq_append_cons hmore
    · exact (halone.before hn point rfl).2 hp
    · exact ih hrest halone.of_cons.of_cons

mutual

theorem Chain.exists_context {tier next : Tier} {ts : List Token} {left e : Expr} :
    Chain tier next ts left e → ∃ k : Expr.Context, e = k.fill left ∧
      ∀ left', Nonempty (Chain tier next ts left' (k.fill left'))
  | .done => ⟨.hole, rfl, fun _ => ⟨.done⟩⟩
  | @Chain.more _ _ op t _ _ _ right _ h p tail => by
    obtain ⟨k, rfl, hk⟩ := tail.exists_context
    refine ⟨k.comp (.left op .hole right t.location.offset), by simp [Expr.Context.fill],
      fun left' => ?_⟩
    obtain ⟨c⟩ := hk (.binary op left' right t.location.offset)
    rw [Expr.Context.fill_comp]
    exact ⟨.more h p c⟩

/-- The part of the derivation that has the token has the hole, and the other parts are derived
around it as before. What stands between the parts is no operand, and so is not the token. -/
theorem Phrase.holds {tier : Tier} {ts : List Token} {e : Expr} (o : Operand [t] n) :
    Phrase tier ts e → ∀ {front back : List Token}, ts = front ++ t :: back → Alone front t back →
      Holds (Phrase tier) front back n e
  | .chain rule head tail, front, back, h, halone => by
    obtain ⟨more, hmore, rfl⟩ | ⟨more, rfl, hmore⟩ := append_eq_append_cons h
    · -- All of the chain is built onto the first operand, so that its hole is the deepest.
      obtain ⟨k, rfl, hk⟩ := tail.exists_context
      refine (head.holds o hmore halone.of_append_back).map k
        fun us a x _ hfit => ⟨hfit, fun q => ?_⟩
      obtain ⟨c⟩ := hk x
      rw [← List.append_assoc]
      exact ⟨.chain rule q c⟩
    · refine (tail.holds o hmore halone.of_append).map .hole fun us a x _ hfit =>
        ⟨hfit.of_append, fun c => ?_⟩
      rw [List.append_assoc, List.append_assoc, ← List.append_assoc more]
      exact ⟨.chain rule head c⟩
  | .bang ht p, front, back, h, halone => by
    obtain ⟨more, rfl, hmore⟩ := o.exists_behind (by rw [ht]; decide) h
    exact (p.holds o hmore halone.of_cons).map (.operand .not .hole _) fun us a x _ hfit =>
      ⟨hfit.of_cons, fun q => ⟨.bang ht q⟩⟩
  | .word ht hn p, front, back, h, halone => by
    obtain ⟨-, rfl, -⟩ | ⟨more, rfl, hmore⟩ := cons_eq_append_cons h
    · exact absurd ht o.not_isWord
    · refine (p.holds o hmore halone.of_cons).map (.operand .not .hole _) fun us a x ha hfit =>
        ⟨hfit.of_cons, fun q => ⟨.word ht ?_ q⟩⟩
      cases more with
      | nil =>
        -- The word is right in front, and the new operand may not make a call or a path of it.
        intro u hu
        obtain ⟨v, vs, rfl, -⟩ := ha.head
        exact ⟨hfit _ rfl ht u hu, ha.head_ne_dot u hu⟩
      | cons u more =>
        rw [hmore] at hn
        exact hn
  | .comparison p, front, back, h, halone =>
    (p.holds o h halone).map .hole fun us a x _ hfit => ⟨hfit, fun q => ⟨.comparison q⟩⟩
  | .power b ht x, front, back, h, halone => by
    obtain ⟨more, hmore, rfl⟩ | ⟨more, rfl, hmore⟩ := append_eq_append_cons h
    · refine (b.holds o hmore halone.of_append_back).map (.left .power .hole _ _)
        fun us a y _ hfit => ⟨hfit, fun q => ?_⟩
      rw [← List.append_assoc]
      exact ⟨.power q ht x⟩
    · obtain ⟨rest, rfl, hrest⟩ := o.exists_behind (by rw [ht]; decide) hmore
      refine (x.holds o hrest halone.of_append.of_cons).map (.right .power _ .hole _)
        fun us a y _ hfit => ⟨hfit.of_append.of_cons, fun q => ?_⟩
      rw [List.append_assoc, List.append_assoc, List.cons_append, ← List.append_assoc rest]
      exact ⟨.power b ht q⟩
  | .sign p, front, back, h, halone =>
    (p.holds o h halone).map .hole fun us a x _ hfit => ⟨hfit, fun q => ⟨.sign q⟩⟩
  | .minus ht p, front, back, h, halone => by
    obtain ⟨more, rfl, hmore⟩ := o.exists_behind (by rw [ht]; decide) h
    exact (p.holds o hmore halone.of_cons).map (.operand .negate .hole _) fun us a x _ hfit =>
      ⟨hfit.of_cons, fun q => ⟨.minus ht q⟩⟩
  | .plus ht p, front, back, h, halone => by
    obtain ⟨more, rfl, hmore⟩ := o.exists_behind (by rw [ht]; decide) h
    exact (p.holds o hmore halone.of_cons).map .hole fun us a x _ hfit =>
      ⟨hfit.of_cons, fun q => ⟨.plus ht q⟩⟩
  | .operand p, front, back, h, halone =>
    (o.holds p h halone).map .hole fun us a x _ hfit => ⟨hfit, fun q => ⟨.operand q⟩⟩

theorem Chain.holds {tier next : Tier} {ts : List Token} {left e : Expr} (o : Operand [t] n) :
    Chain tier next ts left e → ∀ {front back : List Token}, ts = front ++ t :: back →
      Alone front t back → Holds (fun us => Chain tier next us left) front back n e
  | .done, front, back, h, _ => by simp at h
  | @Chain.more _ _ op u _ _ _ right _ hj p tail, front, back, h, halone => by
    obtain ⟨-, rfl, -⟩ | ⟨more, rfl, hmore⟩ := cons_eq_append_cons h
    · exact absurd hj o.not_joins
    obtain ⟨rest, hrest, rfl⟩ | ⟨rest, rfl, hrest⟩ := append_eq_append_cons hmore
    · obtain ⟨k, rfl, hk⟩ := tail.exists_context
      have hfill : k.fill (.binary op left right u.location.offset) =
          (k.comp (.right op left .hole u.location.offset)).fill right :=
        by simp [Expr.Context.fill]
      rw [hfill]
      refine (p.holds o hrest halone.of_cons.of_append_back).map _ fun us a x _ hfit =>
        ⟨hfit.of_cons, fun q => ?_⟩
      obtain ⟨c⟩ := hk (.binary op left x u.location.offset)
      rw [Expr.Context.fill_comp, ← List.append_assoc]
      exact ⟨.more hj q c⟩
    · refine (tail.holds o hrest halone.of_cons.of_append).map .hole fun us a x _ hfit =>
        ⟨hfit.of_cons.of_append, fun c => ?_⟩
      rw [List.append_assoc, List.cons_append, List.append_assoc, ← List.append_assoc rest]
      exact ⟨.more hj p c⟩

theorem Operand.holds {ts : List Token} {e : Expr} (o : Operand [t] n) :
    Operand ts e → ∀ {front back : List Token}, ts = front ++ t :: back → Alone front t back →
      Holds Operand front back n e
  | .number ht hd, _, _, h, _ => o.holds_single (.number ht hd) h
  | .string ht, _, _, h, _ => o.holds_single (.string ht) h
  | .boolean b ht hw, _, _, h, _ => o.holds_single (.boolean b ht hw) h
  | .booleanWord b hw, _, _, h, _ => o.holds_single (.booleanWord b hw) h
  | .null ht, _, _, h, _ => o.holds_single (.null ht) h
  | .path ht path hr, front, back, h, halone => by
    obtain ⟨rfl, rfl, rfl⟩ | ⟨more, rfl, hmore⟩ := cons_eq_append_cons h
    · cases path with
      | nil => exact o.holds_single (.path ht .nil hr) rfl
      | cons hp => exact absurd hp (halone.after ht _ rfl).2
    · exact absurd halone (path.not_alone o hmore)
  | .global ht hn path, front, back, h, halone => by
    obtain ⟨more, rfl, hmore⟩ := o.exists_behind (by rw [ht]; decide) h
    obtain ⟨rfl, rfl, -⟩ | ⟨rest, rfl, hrest⟩ := cons_eq_append_cons hmore
    · exact absurd ht (halone.before hn _ rfl).1
    · exact absurd halone.of_cons (path.not_alone o hrest)
  | .emptyCall hn ho hc, front, back, h, halone => by
    obtain ⟨-, rfl, rfl⟩ | ⟨more, rfl, hmore⟩ := cons_eq_append_cons h
    · exact absurd ho (halone.after hn _ rfl).1
    obtain ⟨rest, rfl, hrest⟩ := o.exists_behind (by rw [ho]; decide) hmore
    exact absurd hrest (o.not_last (by rw [hc]; decide))
  | .call hn ho args, front, back, h, halone => by
    obtain ⟨-, rfl, rfl⟩ | ⟨more, rfl, hmore⟩ := cons_eq_append_cons h
    · exact absurd ho (halone.after hn _ rfl).1
    obtain ⟨rest, rfl, hrest⟩ := o.exists_behind (by rw [ho]; decide) hmore
    obtain ⟨before, c, after, rfl, hc⟩ := args.holds o hrest halone.of_cons.of_cons
    refine ⟨.argument _ before c after _, rfl, fun us a ha hfit => ?_⟩
    obtain ⟨q⟩ := hc us a ha hfit.of_cons.of_cons
    exact ⟨.call hn ho q⟩
  | .group ho p hc, front, back, h, halone => by
    obtain ⟨more, rfl, hmore⟩ := o.exists_behind (by rw [ho]; decide) h
    obtain ⟨rest, hrest, rfl⟩ | ⟨rest, -, hrest⟩ := append_eq_append_cons hmore
    · refine (p.holds o hrest halone.of_cons.of_append_back).map .hole fun us a x _ hfit =>
        ⟨hfit.of_cons, fun q => ?_⟩
      rw [← List.append_assoc]
      exact ⟨.group ho q hc⟩
    · exact absurd hrest (o.not_last (by rw [hc]; decide))

theorem Arguments.holds {ts : List Token} {es : List Expr} (o : Operand [t] n) :
    Arguments ts es → ∀ {front back : List Token}, ts = front ++ t :: back → Alone front t back →
      ∃ before c after, es = before ++ Expr.Context.fill n c :: after ∧
        ∀ us a, Operand us a → Fits front us →
          Nonempty (Arguments (front ++ us ++ back) (before ++ c.fill a :: after))
  | .last p hc, front, back, h, halone => by
    obtain ⟨more, hmore, rfl⟩ | ⟨more, -, hmore⟩ := append_eq_append_cons h
    · obtain ⟨c, rfl, hd⟩ := p.holds o hmore halone.of_append_back
      refine ⟨[], c, [], rfl, fun us a ha hfit => ?_⟩
      obtain ⟨q⟩ := hd us a ha hfit
      rw [← List.append_assoc]
      exact ⟨.last q hc⟩
    · exact absurd hmore (o.not_last (by rw [hc]; decide))
  | .more p hc args, front, back, h, halone => by
    obtain ⟨more, hmore, rfl⟩ | ⟨more, rfl, hmore⟩ := append_eq_append_cons h
    · obtain ⟨c, rfl, hd⟩ := p.holds o hmore halone.of_append_back
      refine ⟨[], c, _, rfl, fun us a ha hfit => ?_⟩
      obtain ⟨q⟩ := hd us a ha hfit
      rw [← List.append_assoc]
      exact ⟨.more q hc args⟩
    · obtain ⟨rest, rfl, hrest⟩ := o.exists_behind (by rw [hc]; decide) hmore
      obtain ⟨before, c, after, rfl, hd⟩ := args.holds o hrest halone.of_append.of_cons
      refine ⟨_ :: before, c, after, rfl, fun us a ha hfit => ?_⟩
      obtain ⟨q⟩ := hd us a ha hfit.of_append.of_cons
      rw [List.append_assoc, List.append_assoc, List.cons_append, ← List.append_assoc rest]
      exact ⟨.more p hc q⟩

end

theorem Phrase.mem_nodes {tier : Tier} {ts : List Token} {e : Expr} (p : Phrase tier ts e)
    (o : Operand [t] n) (h : ts = front ++ t :: back) (halone : Alone front t back) :
    n ∈ e.nodes := by
  obtain ⟨c, rfl, -⟩ := p.holds o h halone
  exact c.mem_nodes_fill n

end

end RuleFormula.Grammar

namespace RuleFormula

open Grammar

/-- A name that stands alone is a leaf of the tree, and formulas in parentheses may stand there
instead. The tree is the same then, but for the leaf. -/
theorem parseTokens_parenthesised {limit inner : Nat} {front back inside : List Token}
    {name opening close ending stop : Token} {e a : Expr}
    (hn : name.kind = .identifier) (hr : ¬ IsReserved name.text)
    (hbefore : ∀ t ∈ front.getLast?, t.kind ≠ .fieldMarker ∧ t.kind ≠ .dot ∧ ¬ t.isWord "NOT")
    (hafter : ∀ t ∈ back.head?, t.kind ≠ .leftParen ∧ t.kind ≠ .dot)
    (hplaces : ((front ++ name :: back ++ [ending]).map (·.location.offset)).Nodup)
    (he : parseTokens limit (front ++ name :: back ++ [ending]) = .ok e)
    (ha : parseTokens inner (inside ++ [stop]) = .ok a)
    (ho : opening.kind = .leftParen) (hc : close.kind = .rightParen) :
    (∀ n, n ∈ e.nodes ∧ n.position = name.location.offset ↔
      n = .field [name.text] name.location.offset) ∧
    ∀ more, (front ++ opening :: inside ++ close :: back ++ [ending]).length ≤ more →
      parseTokens more (front ++ opening :: inside ++ close :: back ++ [ending]) =
        .ok (Expr.replaceField name.location.offset a e) := by
  obtain ⟨hend, hbody, p, -⟩ := parseTokens_eq_ok_iff.1 he
  obtain ⟨-, hinside, q, -⟩ := parseTokens_eq_ok_iff.1 ha
  have o : Operand [name] (.field [name.text] name.location.offset) := .path hn .nil fun _ => hr
  have halone : Alone front name back :=
    ⟨fun _ t ht => ⟨(hbefore t ht).1, (hbefore t ht).2.1⟩, fun _ => hafter⟩
  have hp : ((front ++ name :: back).map (·.location.offset)).Nodup :=
    hplaces.sublist ((List.sublist_append_left _ _).map _)
  have hpositions : (e.nodes.map Expr.position).Nodup :=
    ((e.nodes_perm_inOrder.map Expr.position).nodup_iff).2
      (hp.sublist p.introduced.positions_sublist)
  -- As no two positions are the same, the leaf in the hole is the only node at its place.
  obtain ⟨c, rfl, hd⟩ := p.holds o rfl halone
  have hleaf := c.mem_nodes_fill (.field [name.text] name.location.offset)
  refine ⟨fun n => ⟨fun hx => List.inj_on_of_nodup_map hpositions hx.1 hleaf hx.2, ?_⟩,
    fun more hmore => ?_⟩
  · rintro rfl
    exact ⟨hleaf, rfl⟩
  · rw [c.replaceField_fill a hpositions]
    have hfits : Fits front (opening :: inside ++ [close]) :=
      fun t ht hw => absurd hw (hbefore t ht).2.2
    obtain ⟨r⟩ := hd _ a (.group ho q hc) hfits
    have hts : front ++ opening :: inside ++ close :: back =
        front ++ (opening :: inside ++ [close]) ++ back := by simp
    have hts' : ∀ t ∈ front ++ opening :: inside ++ close :: back, t.kind ≠ .endOfInput := by
      simp only [List.mem_append, List.mem_cons] at hbody ⊢
      rintro t ((ht | rfl | ht) | rfl | ht)
      · exact hbody t (.inl ht)
      · simp [ho]
      · exact hinside t ht
      · simp [hc]
      · exact hbody t (.inr (.inr ht))
    refine (parseTokens_eq_ok_iff_derives _ ending hend hts' more hmore _).2 ?_
    rw [hts]
    exact ⟨r⟩

theorem parseTokens_parenthesised_factor : ∃ e a,
    parseTokens 2 [⟨.number, "2", ⟨0, 1, 1⟩⟩, ⟨.star, "*", ⟨2, 1, 3⟩⟩,
      ⟨.identifier, "x", ⟨4, 1, 5⟩⟩, .atEnd ⟨5, 1, 6⟩] = .ok e ∧
    parseTokens 2 [⟨.identifier, "y", ⟨0, 1, 1⟩⟩, ⟨.plus, "+", ⟨2, 1, 3⟩⟩,
      ⟨.identifier, "z", ⟨4, 1, 5⟩⟩, .atEnd ⟨5, 1, 6⟩] = .ok a ∧
    parseTokens 8 [⟨.number, "2", ⟨0, 1, 1⟩⟩, ⟨.star, "*", ⟨2, 1, 3⟩⟩,
      ⟨.leftParen, "(", ⟨0, 1, 1⟩⟩, ⟨.identifier, "y", ⟨0, 1, 1⟩⟩, ⟨.plus, "+", ⟨2, 1, 3⟩⟩,
      ⟨.identifier, "z", ⟨4, 1, 5⟩⟩, ⟨.rightParen, ")", ⟨0, 1, 1⟩⟩, .atEnd ⟨5, 1, 6⟩] =
      .ok (Expr.replaceField 4 a e) := by
  have he : parseTokens 2 ([⟨.number, "2", ⟨0, 1, 1⟩⟩, ⟨.star, "*", ⟨2, 1, 3⟩⟩] ++
      (⟨.identifier, "x", ⟨4, 1, 5⟩⟩ : Token) :: [] ++ [.atEnd ⟨5, 1, 6⟩]) =
    .ok (.binary .multiply (.literal (.number ⟨2, 0, by decide, by decide⟩) 0)
      (.field ["x"] 4) 2) :=
    rfl
  have ha : parseTokens 2 ([⟨.identifier, "y", ⟨0, 1, 1⟩⟩, ⟨.plus, "+", ⟨2, 1, 3⟩⟩,
      ⟨.identifier, "z", ⟨4, 1, 5⟩⟩] ++ [.atEnd ⟨5, 1, 6⟩]) =
    .ok (.binary .add (.field ["y"] 0) (.field ["z"] 4) 2) := rfl
  have ho : (⟨.leftParen, "(", ⟨0, 1, 1⟩⟩ : Token).kind = .leftParen := rfl
  have hc : (⟨.rightParen, ")", ⟨0, 1, 1⟩⟩ : Token).kind = .rightParen := rfl
  obtain ⟨-, hmore⟩ := parseTokens_parenthesised rfl (by decide) (by decide) (by decide)
    (by decide) he ha ho hc
  exact ⟨_, _, he, ha, hmore 8 (by decide)⟩

end RuleFormula
