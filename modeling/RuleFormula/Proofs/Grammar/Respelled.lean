import Mathlib.Data.List.Forall2
import RuleFormula.Proofs.Grammar.Follow
import RuleFormula.Proofs.Grammar.Stream
import RuleFormula.Proofs.Token.Lexical

/-! Symbols and words for the same thing are interchangeable. What a token stands as is told by the
derivation it is part of, and in its role other spellings of it are derived in the same way. -/
set_option autoImplicit false

namespace RuleFormula

def Keyword.kind : Keyword → Token.Kind
  | and => .and
  | or => .or
  | not => .not
  | true | false => .boolean
  | null => .null

def Keyword.ofBool : Bool → Keyword
  | .true => .true
  | .false => .false

theorem Keyword.spelling_ofBool (b : Bool) :
    (ofBool b).spelling = if b then "TRUE" else "FALSE" := by
  cases b <;> rfl

theorem Keyword.kind_ofBool (b : Bool) : (ofBool b).kind = .boolean := by
  cases b <;> rfl

def Keyword.binaryOp? : Keyword → Option BinaryOp
  | and => some .and
  | or => some .or
  | _ => none

theorem Keyword.eq_of_kind_eq {k l : Keyword} (h : k.kind = l.kind) (hb : k.kind ≠ .boolean) :
    k = l := by
  revert h hb
  cases k <;> cases l <;> decide

/-- Only for true and false, which have one kind, the text of the other spelling counts. -/
inductive Token.Spells (t : Token) (k : Keyword) : Prop
  | word (h : t.isWord k.spelling)
  | kind (h : t.kind = k.kind) (ht : t.kind = .boolean → Text.sameWord t.text k.spelling)

namespace Grammar

/-- What a token stands as in a derivation. -/
inductive Role where
  | operator
  | negation (next : Option Token)
  | literal
  | plain

def Role.words : Role → List Keyword
  | operator => [.and, .or]
  | negation _ => [.not]
  | literal => [.true, .false, .null]
  | plain => []

/-- A token that may replace another one in its role: the same operator or punctuation with any
text, or another spelling of the same word. In front of a parenthesis, the word does not negate. -/
inductive Replaces (u : Token) : Role × Token → Prop
  | text {r : Role} {t : Token} (hk : u.kind = t.kind) (ht : t.kind.symbols = [] → u.text = t.text)
      (hl : u.location = t.location) : Replaces u (r, t)
  | word {r : Role} {t : Token} {k : Keyword} (hr : k ∈ r.words) (ht : t.Spells k) (hu : u.Spells k)
      (hn : ∀ next, r = .negation (some next) → next.kind = .leftParen → u.kind = .not)
      (hl : u.location = t.location) : Replaces u (r, t)

mutual

/-- The tokens of a derivation in their roles. -/
def Phrase.parts {tier : Tier} {ts : List Token} {e : Expr} : Phrase tier ts e → List (Role × Token)
  | .chain _ head tail => head.parts ++ tail.parts
  | @Phrase.bang t ts _ _ p | @Phrase.word t ts _ _ _ p => (.negation ts.head?, t) :: p.parts
  | .comparison p | .sign p => p.parts
  | @Phrase.power t _ _ _ _ b _ x => b.parts ++ (.plain, t) :: x.parts
  | @Phrase.minus t _ _ _ p | @Phrase.plus t _ _ _ p => (.plain, t) :: p.parts
  | .operand p => p.parts

def Chain.parts {tier next : Tier} {ts : List Token} {left e : Expr} :
    Chain tier next ts left e → List (Role × Token)
  | .done => []
  | @Chain.more _ _ _ t _ _ _ _ _ _ p tail => (.operator, t) :: p.parts ++ tail.parts

def Operand.parts {ts : List Token} {e : Expr} : Operand ts e → List (Role × Token)
  | @Operand.number t _ _ _ | @Operand.string t _ => [(.plain, t)]
  | @Operand.boolean t _ _ _ | @Operand.booleanWord t _ _ | @Operand.null t _ => [(.literal, t)]
  | @Operand.path t ts _ _ _ _ => (.plain, t) :: ts.map (Prod.mk .plain)
  | @Operand.global t name ts _ _ _ _ => (.plain, t) :: (.plain, name) :: ts.map (Prod.mk .plain)
  | @Operand.emptyCall name opening close _ _ _ =>
    [(.plain, name), (.plain, opening), (.plain, close)]
  | @Operand.call name opening _ _ _ _ args => (.plain, name) :: (.plain, opening) :: args.parts
  | @Operand.group opening close _ _ _ p _ => (.plain, opening) :: p.parts ++ [(.plain, close)]

def Arguments.parts {ts : List Token} {es : List Expr} : Arguments ts es → List (Role × Token)
  | @Arguments.last close _ _ p _ => p.parts ++ [(.plain, close)]
  | @Arguments.more comma _ _ _ _ p _ rest => p.parts ++ (.plain, comma) :: rest.parts

end

mutual

theorem Phrase.parts_map_snd {tier : Tier} {ts : List Token} {e : Expr} :
    (p : Phrase tier ts e) → p.parts.map Prod.snd = ts
  | .chain _ head tail => by
    rw [Phrase.parts, List.map_append, head.parts_map_snd, tail.parts_map_snd]
  | .bang _ p | .word _ _ p | .minus _ p | .plus _ p => by
    rw [Phrase.parts, List.map_cons, p.parts_map_snd]
  | .comparison p | .sign p => p.parts_map_snd
  | .power b _ x => by
    rw [Phrase.parts, List.map_append, List.map_cons, b.parts_map_snd, x.parts_map_snd]
  | .operand p => p.parts_map_snd

theorem Chain.parts_map_snd {tier next : Tier} {ts : List Token} {left e : Expr} :
    (c : Chain tier next ts left e) → c.parts.map Prod.snd = ts
  | .done => rfl
  | .more _ p tail => by
    rw [Chain.parts, List.map_append, List.map_cons, p.parts_map_snd, tail.parts_map_snd]

theorem Operand.parts_map_snd {ts : List Token} {e : Expr} :
    (p : Operand ts e) → p.parts.map Prod.snd = ts
  | .number .. | .string .. | .boolean .. | .booleanWord .. | .null .. | .emptyCall .. => rfl
  | .path .. | .global .. => by simp [Operand.parts, Function.comp_def]
  | .call _ _ args => by
    rw [Operand.parts, List.map_cons, List.map_cons, args.parts_map_snd]
  | .group _ p _ => by
    rw [Operand.parts, List.map_append, List.map_cons, p.parts_map_snd]
    rfl

theorem Arguments.parts_map_snd {ts : List Token} {es : List Expr} :
    (a : Arguments ts es) → a.parts.map Prod.snd = ts
  | .last p _ => by rw [Arguments.parts, List.map_append, p.parts_map_snd]; rfl
  | .more p _ rest => by
    rw [Arguments.parts, List.map_append, List.map_cons, p.parts_map_snd, rest.parts_map_snd]

end

end Grammar

namespace Token.Spells

variable {t u : Token} {k l : Keyword}

theorem kind_mem (h : t.Spells k) : t.kind ∈ [.identifier, .and, .or, .not, .boolean, .null] := by
  cases h with
  | word h => simp [kind_of_isWord h]
  | kind h => cases k <;> simp [h, Keyword.kind]

theorem unique (h : t.Spells k) (h' : t.Spells l) : k = l := by
  cases h with
  | word h =>
    obtain ⟨hi, hk⟩ := (isWord_spelling k).1 h
    cases h' with
    | word h' => exact Option.some.inj (hk.symm.trans ((isWord_spelling l).1 h').2)
    | kind h' =>
      rw [hi] at h'
      cases l <;> cases h'
  | kind h ht =>
    cases h' with
    | word h' =>
      rw [kind_of_isWord h'] at h
      cases k <;> cases h
    | kind h' ht' =>
      by_cases hb : t.kind = .boolean
      · have hk := Keyword.ofText?_eq_some_iff.2 (ht hb)
        exact Option.some.inj (hk.symm.trans (Keyword.ofText?_eq_some_iff.2 (ht' hb)))
      · rw [h] at hb h'
        exact Keyword.eq_of_kind_eq h' hb

theorem congr (h : t.Spells k) (hk : u.kind = t.kind) (ht : t.kind.symbols = [] → u.text = t.text) :
    u.Spells k := by
  cases h with
  | word h =>
    have hi := kind_of_isWord h
    refine .word ?_
    rwa [isWord, hk, ht (by rw [hi]; rfl)]
  | kind h hb =>
    refine .kind (hk.trans h) fun hu => ?_
    rw [hk] at hu
    rw [ht (by rw [hu]; rfl)]
    exact hb hu

theorem binaryOp?_eq (h : t.Spells k) : t.binaryOp? = k.binaryOp? := by
  cases h with
  | word h =>
    obtain ⟨hi, hw⟩ := (isWord_spelling k).1 h
    rw [binaryOp?, hi]
    simp only [hw]
    cases k <;> rfl
  | kind h => cases k <;> simp [binaryOp?, h, Keyword.kind, Keyword.binaryOp?]

end Token.Spells

namespace Grammar

namespace Replaces

variable {r : Role} {t u : Token} {k : Keyword}

theorem location_eq (h : Replaces u (r, t)) : u.location = t.location := by
  cases h <;> assumption

/-- Where no word can stand, a token keeps its kind, and its text if it has a meaning. -/
theorem plain (h : Replaces u (.plain, t)) :
    u.kind = t.kind ∧ (t.kind.symbols = [] → u.text = t.text) := by
  cases h with
  | text hk ht => exact ⟨hk, ht⟩
  | word hr => cases hr

theorem spells (h : Replaces u (r, t)) (ht : t.Spells k) : u.Spells k := by
  cases h with
  | text hk htext => exact ht.congr hk htext
  | word _ ht' hu => exact ht.unique ht' ▸ hu

theorem kind_ne {kind : Token.Kind} (h : Replaces u (r, t))
    (hk : kind ∉ [.identifier, .and, .or, .not, .boolean, .null]) (ht : t.kind ≠ kind) :
    u.kind ≠ kind := by
  cases h with
  | text h => rwa [h]
  | word _ _ hu =>
    rintro rfl
    exact hk hu.kind_mem

theorem binaryOp?_eq (h : Replaces u (.operator, t)) : u.binaryOp? = t.binaryOp? := by
  cases h with
  | text hk ht =>
    unfold Token.binaryOp?
    rw [hk]
    split <;> try rfl
    next hi => rw [ht (by rw [hi]; rfl)]
  | word _ ht hu => rw [ht.binaryOp?_eq, hu.binaryOp?_eq]

theorem next_ne {next : Option Token} (h : Replaces u (.negation next, t)) (hu : u.isWord "NOT")
    (ht : t.isWord "NOT" → ∀ n ∈ next, n.kind ≠ .leftParen) : ∀ n ∈ next, n.kind ≠ .leftParen := by
  have hi := Token.kind_of_isWord hu
  cases h with
  | text hk htext =>
    refine ht ?_
    rw [hk] at hi
    rwa [Token.isWord, hk, htext (by rw [hi]; rfl)] at hu
  | word _ _ _ hn =>
    rintro n hnext hp
    rw [hn n (by rw [hnext]) hp] at hi
    cases hi

end Replaces

theorem Operand.exists_boolean {t : Token} {b : Bool} (h : t.Spells (.ofBool b)) :
    ∃ p : Operand [t] (.literal (.boolean b) t.location.offset), p.levels = 0 := by
  cases h with
  | word h =>
    rw [Keyword.spelling_ofBool] at h
    exact ⟨.booleanWord b h, rfl⟩
  | kind h ht =>
    rw [Keyword.kind_ofBool] at h
    rw [Keyword.spelling_ofBool] at ht
    exact ⟨.boolean b h (ht h), rfl⟩

theorem Operand.exists_null {t : Token} (h : t.Spells .null) :
    ∃ p : Operand [t] (.literal .null t.location.offset), p.levels = 0 := by
  cases h with
  | word h => exact ⟨.null (.inr h), rfl⟩
  | kind h => exact ⟨.null (.inl h), rfl⟩

theorem Phrase.exists_not {t : Token} {ts : List Token} {e : Expr} (h : t.Spells .not)
    (hn : t.isWord "NOT" → ∀ n ∈ ts.head?, n.kind ≠ .leftParen) (p : Phrase .not ts e) :
    ∃ q : Phrase .not (t :: ts) (.unary .not e t.location.offset), q.levels = p.levels + 1 := by
  cases h with
  | word h => exact ⟨.word h (fun n hnext => ⟨hn h n hnext, p.head_ne_dot n hnext⟩) p, rfl⟩
  | kind h => exact ⟨.bang h p, rfl⟩

variable {us : List Token}

theorem exists_append_of_forall₂ {a b : List (Role × Token)}
    (h : List.Forall₂ Replaces us (a ++ b)) : ∃ vs ws, us = vs ++ ws ∧
      List.Forall₂ Replaces vs a ∧ List.Forall₂ Replaces ws b :=
  ⟨_, _, (List.take_append_drop a.length us).symm, List.forall₂_take_append us a b h,
    List.forall₂_drop_append us a b h⟩

theorem Replaces.head_ne {parts : List (Role × Token)} (h : List.Forall₂ Replaces us parts)
    (hn : ∀ n ∈ (parts.map Prod.snd).head?, n.kind ≠ .leftParen) :
    ∀ n ∈ us.head?, n.kind ≠ .leftParen := by
  cases h with
  | nil => simp
  | cons h _ =>
    intro n hu
    cases hu
    exact h.kind_ne (by decide) (hn _ rfl)

theorem Path.respelled {ts : List Token} {names : List String} (path : Path ts names)
    (h : List.Forall₂ Replaces us (ts.map (Prod.mk .plain))) : Path us names := by
  induction path generalizing us with
  | nil =>
    cases h
    exact .nil
  | cons hp hn _ ih =>
    obtain _ | ⟨hpoint, _ | ⟨hname, h⟩⟩ := h
    obtain ⟨hkind, htext⟩ := hname.plain
    rw [← htext (by rw [hn]; rfl)]
    exact .cons (hpoint.plain.1.trans hp) (hkind.trans hn) (ih h)

theorem Replaces.joins {t u : Token} {tier next : Tier} {op : BinaryOp} (rule : Chains tier next)
    (h : Replaces u (.operator, t)) (hj : Joins t tier op) : Joins u tier op := by
  refine .of_operator? rule ?_
  rw [Tier.operator?, h.binaryOp?_eq]
  exact hj.operator?_eq_some

theorem Replaces.name {t u : Token} (h : Replaces u (.plain, t)) (ht : t.kind = .identifier) :
    u.kind = .identifier ∧ u.text = t.text := by
  obtain ⟨hkind, htext⟩ := h.plain
  exact ⟨hkind.trans ht, htext (by rw [ht]; rfl)⟩

mutual

/-- With other spellings, a phrase is one of the same tree and of the same levels. -/
theorem Phrase.exists_respelled {tier : Tier} {ts us : List Token} {e : Expr} :
    (p : Phrase tier ts e) → List.Forall₂ Replaces us p.parts →
      ∃ q : Phrase tier us e, q.levels = p.levels
  | .chain rule head tail, h => by
    obtain ⟨vs, ws, rfl, hv, hw⟩ := exists_append_of_forall₂ h
    obtain ⟨q, hq⟩ := head.exists_respelled hv
    obtain ⟨c, hc⟩ := tail.exists_respelled rule hw
    exact ⟨.chain rule q c, by simp only [Phrase.levels, hq, hc]⟩
  | .bang ht p, h => by
    obtain _ | ⟨hu, h⟩ := h
    obtain ⟨q, hq⟩ := p.exists_respelled h
    have hspells := hu.spells (Token.Spells.kind (k := .not) ht (by simp [ht]))
    obtain ⟨r, hr⟩ := q.exists_not hspells fun hw =>
      Replaces.head_ne h (by
        rw [p.parts_map_snd]
        exact hu.next_ne hw fun hword => by simp [Token.kind_of_isWord hword] at ht)
    simp only [Phrase.levels]
    rw [← hu.location_eq, ← hq]
    exact ⟨r, hr⟩
  | .word ht hn p, h => by
    obtain _ | ⟨hu, h⟩ := h
    obtain ⟨q, hq⟩ := p.exists_respelled h
    have hspells := hu.spells (Token.Spells.word (k := .not) ht)
    obtain ⟨r, hr⟩ := q.exists_not hspells fun _ =>
      Replaces.head_ne h (by
        rw [p.parts_map_snd]
        exact fun n hnext => (hn n hnext).1)
    simp only [Phrase.levels]
    rw [← hu.location_eq, ← hq]
    exact ⟨r, hr⟩
  | .comparison p, h => by
    obtain ⟨q, hq⟩ := p.exists_respelled h
    exact ⟨.comparison q, hq⟩
  | .power b ht x, h => by
    obtain ⟨vs, ws, rfl, hv, h⟩ := exists_append_of_forall₂ h
    obtain _ | ⟨hu, hw⟩ := h
    obtain ⟨q, hq⟩ := b.exists_respelled hv
    obtain ⟨r, hr⟩ := x.exists_respelled hw
    simp only [Phrase.levels]
    rw [← hu.location_eq, ← hq, ← hr]
    exact ⟨.power q (hu.plain.1.trans ht) r, rfl⟩
  | .sign p, h => by
    obtain ⟨q, hq⟩ := p.exists_respelled h
    exact ⟨.sign q, hq⟩
  | .minus ht p, h => by
    obtain _ | ⟨hu, h⟩ := h
    obtain ⟨q, hq⟩ := p.exists_respelled h
    simp only [Phrase.levels]
    rw [← hu.location_eq, ← hq]
    exact ⟨.minus (hu.plain.1.trans ht) q, rfl⟩
  | .plus ht p, h => by
    obtain _ | ⟨hu, h⟩ := h
    obtain ⟨q, hq⟩ := p.exists_respelled h
    exact ⟨.plus (hu.plain.1.trans ht) q, by simp only [Phrase.levels, hq]⟩
  | .operand p, h => by
    obtain ⟨q, hq⟩ := p.exists_respelled h
    exact ⟨.operand q, hq⟩

theorem Chain.exists_respelled {tier next : Tier} {ts us : List Token} {left e : Expr} :
    (c : Chain tier next ts left e) → Chains tier next → List.Forall₂ Replaces us c.parts →
      ∃ q : Chain tier next us left e, q.levels = c.levels
  | .done, _, h => by
    obtain _ | _ := h
    exact ⟨.done, rfl⟩
  | @Chain.more _ _ op _ _ _ left right e hj p tail, rule, h => by
    obtain ⟨vs, ws, rfl, hv, hw⟩ := exists_append_of_forall₂ h
    obtain _ | @⟨u, _, _, _, hu, hv⟩ := hv
    obtain ⟨q, hq⟩ := p.exists_respelled hv
    obtain ⟨c, hc⟩ : ∃ c : Chain tier next ws (.binary op left right u.location.offset) e,
        c.levels = tail.levels := by
      rw [hu.location_eq]
      exact tail.exists_respelled rule hw
    exact ⟨.more (hu.joins rule hj) q c, by simp only [Chain.levels, hq, hc]⟩

theorem Operand.exists_respelled {ts us : List Token} {e : Expr} :
    (p : Operand ts e) → List.Forall₂ Replaces us p.parts →
      ∃ q : Operand us e, q.levels = p.levels
  | .number ht hd, h => by
    obtain _ | ⟨hu, _ | _⟩ := h
    obtain ⟨hkind, htext⟩ := hu.plain
    simp only [Operand.levels]
    rw [← hu.location_eq]
    exact ⟨.number (hkind.trans ht) (by rwa [htext (by rw [ht]; rfl)]), rfl⟩
  | .string ht, h => by
    obtain _ | ⟨hu, _ | _⟩ := h
    obtain ⟨hkind, htext⟩ := hu.plain
    simp only [Operand.levels]
    rw [← hu.location_eq, ← htext (by rw [ht]; rfl)]
    exact ⟨.string (hkind.trans ht), rfl⟩
  | .boolean b ht hw, h => by
    obtain _ | ⟨hu, _ | _⟩ := h
    simp only [Operand.levels]
    rw [← hu.location_eq]
    refine Operand.exists_boolean (hu.spells (.kind ?_ fun _ => ?_))
    · rw [ht, Keyword.kind_ofBool]
    · rwa [Keyword.spelling_ofBool]
  | .booleanWord b hw, h => by
    obtain _ | ⟨hu, _ | _⟩ := h
    simp only [Operand.levels]
    rw [← hu.location_eq]
    refine Operand.exists_boolean (hu.spells (.word ?_))
    rwa [Keyword.spelling_ofBool]
  | .null ht, h => by
    obtain _ | ⟨hu, _ | _⟩ := h
    simp only [Operand.levels]
    rw [← hu.location_eq]
    refine Operand.exists_null (hu.spells ?_)
    rcases ht with ht | hw
    · exact .kind ht (by simp [ht])
    · exact .word hw
  | .path ht path hr, h => by
    obtain _ | ⟨hu, h⟩ := h
    obtain ⟨hkind, htext⟩ := hu.name ht
    simp only [Operand.levels]
    rw [← hu.location_eq, ← htext]
    exact ⟨.path hkind (path.respelled h) (by rwa [htext]), rfl⟩
  | .global ht hn path, h => by
    obtain _ | ⟨hu, _ | ⟨hname, h⟩⟩ := h
    obtain ⟨hkind, htext⟩ := hname.name hn
    simp only [Operand.levels]
    rw [← hu.location_eq, ← htext]
    exact ⟨.global (hu.plain.1.trans ht) hkind (path.respelled h), rfl⟩
  | .emptyCall hn ho hc, h => by
    obtain _ | ⟨hname, _ | ⟨hopening, _ | ⟨hclose, _ | _⟩⟩⟩ := h
    obtain ⟨hkind, htext⟩ := hname.name hn
    simp only [Operand.levels]
    rw [← hname.location_eq, ← htext]
    exact ⟨.emptyCall hkind (hopening.plain.1.trans ho) (hclose.plain.1.trans hc), rfl⟩
  | .call hn ho args, h => by
    obtain _ | ⟨hname, _ | ⟨hopening, h⟩⟩ := h
    obtain ⟨hkind, htext⟩ := hname.name hn
    obtain ⟨q, hq⟩ := args.exists_respelled h
    simp only [Operand.levels]
    rw [← hname.location_eq, ← htext]
    exact ⟨.call hkind (hopening.plain.1.trans ho) q, hq⟩
  | .group ho p hc, h => by
    obtain ⟨vs, ws, rfl, hv, hw⟩ := exists_append_of_forall₂ h
    obtain _ | ⟨hopening, hv⟩ := hv
    obtain _ | ⟨hclose, _ | _⟩ := hw
    obtain ⟨q, hq⟩ := p.exists_respelled hv
    exact ⟨.group (hopening.plain.1.trans ho) q (hclose.plain.1.trans hc),
      by simp only [Operand.levels, hq]⟩

theorem Arguments.exists_respelled {ts us : List Token} {es : List Expr} :
    (a : Arguments ts es) → List.Forall₂ Replaces us a.parts →
      ∃ q : Arguments us es, q.levels = a.levels
  | .last p hc, h => by
    obtain ⟨vs, ws, rfl, hv, hw⟩ := exists_append_of_forall₂ h
    obtain _ | ⟨hclose, _ | _⟩ := hw
    obtain ⟨q, hq⟩ := p.exists_respelled hv
    exact ⟨.last q (hclose.plain.1.trans hc), by simp only [Arguments.levels, hq]⟩
  | .more p hc rest, h => by
    obtain ⟨vs, ws, rfl, hv, hw⟩ := exists_append_of_forall₂ h
    obtain _ | ⟨hcomma, hw⟩ := hw
    obtain ⟨q, hq⟩ := p.exists_respelled hv
    obtain ⟨r, hr⟩ := rest.exists_respelled hw
    exact ⟨.more q (hcomma.plain.1.trans hc) r, by simp only [Arguments.levels, hq, hr]⟩

end

end Grammar

open Grammar

theorem Grammar.Replaces.body {us : List Token} {parts : List (Role × Token)}
    (h : List.Forall₂ Replaces us parts) (hb : ∀ t ∈ parts.map Prod.snd, t.kind ≠ .endOfInput) :
    ∀ u ∈ us, u.kind ≠ .endOfInput := by
  induction h with
  | nil => simp
  | cons h _ ih =>
    intro u hu
    rcases List.mem_cons.1 hu with rfl | hu
    · exact h.kind_ne (by decide) (hb _ (.head _))
    · exact ih (fun t ht => hb t (.tail _ ht)) u hu

/-- What is read as a tree is derived, and with other spellings in the roles of any of its
derivations it is read as the same tree under the same limit. -/
theorem parseTokens_respelled {limit : Nat} {ts : List Token} {e : Expr}
    (h : parseTokens limit ts = .ok e) : ∃ body ending, ts = body ++ [ending] ∧ Derives body e ∧
      ∀ (p : Phrase .or body e) (us : List Token), p.parts.map Prod.snd = body ∧
        (List.Forall₂ Replaces us p.parts → parseTokens limit (us ++ [ending]) = .ok e) := by
  obtain ⟨s, rfl, hend, hread⟩ := exists_ended_of_parseTokens h
  obtain ⟨p, -⟩ := TokenStream.readFormula_eq_ok_iff.1 hread
  refine ⟨s.body, s.ending, rfl, ⟨p⟩, fun p us => ⟨p.parts_map_snd, fun hr => ?_⟩⟩
  have hlevels : p.levels < limit := by
    refine Nat.lt_of_not_le fun hle => ?_
    obtain ⟨l, hdeep⟩ := TokenStream.readFormula_of_levels_ge p hle
    rw [hread] at hdeep
    cases hdeep
  obtain ⟨q, hq⟩ := p.exists_respelled hr
  have hbody := Replaces.body hr (by rw [p.parts_map_snd]; exact hend.2)
  rw [parseTokens_append limit hend.1 hbody]
  exact TokenStream.readFormula_eq_ok_iff.2 ⟨q, by omega⟩

theorem parseTokens_respelled_not_and : ∃ e,
    parseTokens 3 [⟨.identifier, "not", ⟨0, 1, 1⟩⟩, ⟨.identifier, "a", ⟨4, 1, 5⟩⟩,
      ⟨.and, "&&", ⟨6, 1, 7⟩⟩, ⟨.identifier, "True", ⟨9, 1, 10⟩⟩, .atEnd ⟨13, 1, 14⟩] = .ok e ∧
    parseTokens 3 [⟨.not, "!", ⟨0, 1, 1⟩⟩, ⟨.identifier, "a", ⟨4, 1, 5⟩⟩,
      ⟨.identifier, "And", ⟨6, 1, 7⟩⟩, ⟨.boolean, "true", ⟨9, 1, 10⟩⟩,
      .atEnd ⟨13, 1, 14⟩] = .ok e := by
  have h : parseTokens 3 ([⟨.identifier, "not", ⟨0, 1, 1⟩⟩, ⟨.identifier, "a", ⟨4, 1, 5⟩⟩,
      ⟨.and, "&&", ⟨6, 1, 7⟩⟩, ⟨.identifier, "True", ⟨9, 1, 10⟩⟩] ++ [.atEnd ⟨13, 1, 14⟩]) =
      .ok (.binary .and (.unary .not (.field ["a"] 4) 0) (.literal (.boolean true) 9) 6) := rfl
  let word : Token := ⟨.identifier, "not", ⟨0, 1, 1⟩⟩
  let name : Token := ⟨.identifier, "a", ⟨4, 1, 5⟩⟩
  let sign : Token := ⟨.and, "&&", ⟨6, 1, 7⟩⟩
  let truth : Token := ⟨.identifier, "True", ⟨9, 1, 10⟩⟩
  have alone {t : Token} {e : Expr} (p : Operand [t] e) :
      ∃ q : Phrase .not [t] e, q.parts = p.parts :=
    ⟨.comparison (.chain .comparison (.chain .concat (.chain .sum (.chain .product
      (.sign (.operand p)) .done) .done) .done) .done), by simp [Phrase.parts, Chain.parts]⟩
  obtain ⟨a, ha⟩ := alone (@Operand.path name [] [] rfl .nil fun _ => by decide)
  obtain ⟨b, hb⟩ := alone (@Operand.booleanWord truth true (by decide))
  let p := Phrase.chain .or (.chain .and (.word (t := word) (by decide) (by simp [name]) a)
    (.more (t := sign) (.and (.inl rfl)) b .done)) .done
  have hp : p.parts = [(.negation (some name), word), (.plain, name), (.operator, sign),
      (.literal, truth)] := by
    simp [p, Phrase.parts, Chain.parts, ha, hb, Operand.parts]
  obtain ⟨body, ending, hts, -, hrespelled⟩ := parseTokens_respelled h
  obtain ⟨rfl, hending⟩ := List.append_inj' hts rfl
  cases hending
  have hr : List.Forall₂ Replaces [⟨.not, "!", ⟨0, 1, 1⟩⟩, ⟨.identifier, "a", ⟨4, 1, 5⟩⟩,
      ⟨.identifier, "And", ⟨6, 1, 7⟩⟩, ⟨.boolean, "true", ⟨9, 1, 10⟩⟩] p.parts := by
    rw [hp]
    refine .cons ?_ (.cons ?_ (.cons ?_ (.cons ?_ .nil)))
    · exact .word (k := .not) (by decide) (.word (by decide)) (.kind rfl (by simp)) (by simp) rfl
    · exact .text rfl (fun _ => rfl) rfl
    · exact .word (k := .and) (by decide) (.kind rfl (by simp [sign]))
        (.word (by decide)) (by simp) rfl
    · exact .word (k := .true) (by decide) (.word (by decide))
        (.kind rfl fun _ => by decide) (by simp) rfl
  exact ⟨_, h, (hrespelled p _).2 hr⟩

end RuleFormula
