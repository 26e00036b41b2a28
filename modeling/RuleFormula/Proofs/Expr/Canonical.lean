import RuleFormula.Proofs.Expr.Spelling

set_option autoImplicit false

namespace RuleFormula

namespace Expr

mutual

/-- The levels that reading the canonical form takes below the top: one for the parentheses of an
operation and one for its right or only operand, one for the arguments of a call. -/
def levels : Expr → Nat
  | binary _ left right _ => 1 + max left.levels (1 + right.levels)
  | unary _ operand _ => 2 + operand.levels
  | call _ [] _ => 0
  | call _ (e :: es) _ => 1 + max e.levels (levelsList es)
  | literal .. | field .. => 0

def levelsList : List Expr → Nat
  | [] => 0
  | e :: es => max e.levels (levelsList es)

end

theorem levels_call {name : String} {args : List Expr} {place : Nat} (h : args ≠ []) :
    (call name args place).levels = 1 + levelsList args := by
  cases args with
  | nil => exact absurd rfl h
  | cons e es => simp only [levels, levelsList]

mutual

theorem levels_lt_depth : (e : Expr) → e.levels + 1 < 2 * e.depth
  | binary _ l r _ => by
    have hl := levels_lt_depth l
    have hr := levels_lt_depth r
    simp only [levels, depth]; omega
  | unary _ e _ => by
    have he := levels_lt_depth e
    simp only [levels, depth]; omega
  | call _ [] _ => by simp [levels, depth, depthList]
  | call _ (e :: es) _ => by
    have he := levels_lt_depth e
    have hes := levelsList_le_depthList es
    simp only [levels, depth, depthList]; omega
  | literal .. | field .. => by simp [levels, depth]

theorem levelsList_le_depthList : (es : List Expr) → levelsList es ≤ 2 * depthList es - 2
  | [] => Nat.le_refl 0
  | e :: es => by
    have he := levels_lt_depth e
    have hes := levelsList_le_depthList es
    simp only [levelsList, depthList]; omega

end

end Expr

namespace Grammar

theorem exists_group {opening close : Token} {tier : Tier} {ts : List Token} {e : Expr}
    (ho : opening.kind = .leftParen) (p : Phrase tier ts e) (hc : close.kind = .rightParen) :
    ∃ q : Operand (opening :: (ts ++ [close])) e, q.levels = 1 + p.levels := by
  obtain ⟨q, hq⟩ := p.exists_of_rank_le .or (Nat.zero_le _)
  refine ⟨.group ho q hc, ?_⟩
  rw [Operand.levels, hq, Nat.add_comm]

theorem exists_joined {t : Token} {tier next : Tier} {op : BinaryOp} {ls rs : List Token}
    {a b : Expr} (rule : Chains tier next) (h : Joins t tier op) (l : Operand ls a)
    (r : Operand rs b) : ∃ p : Phrase tier (ls ++ t :: rs) (.binary op a b t.location.offset),
      p.levels = max l.levels (1 + r.levels) := by
  obtain ⟨left, hl⟩ := l.exists_phrase next
  obtain ⟨right, hr⟩ := r.exists_phrase next
  have hp : ∃ p : Phrase tier (ls ++ (t :: rs ++ [])) (.binary op a b t.location.offset),
      p.levels = max l.levels (1 + r.levels) := by
    refine ⟨.chain rule left (.more h right .done), ?_⟩
    simp only [Phrase.levels, Chain.levels]
    omega
  rwa [List.append_nil] at hp

theorem exists_power {t : Token} {ls rs : List Token} {a b : Expr} (h : t.kind = .caret)
    (l : Operand ls a) (r : Operand rs b) :
    ∃ p : Phrase .power (ls ++ t :: rs) (.binary .power a b t.location.offset),
      p.levels = max l.levels (1 + r.levels) := by
  obtain ⟨right, hr⟩ := r.exists_phrase .power
  refine ⟨.power (.operand l) h right, ?_⟩
  simp only [Phrase.levels]
  omega

theorem isWord_of_spelling {t : Token} {w : String} (h : t.spelling = (.identifier, w)) :
    t.isWord w = true := by
  obtain ⟨hk, hw⟩ := Prod.mk.inj h
  simp [Token.isWord, hk, hw, Text.sameWord]

theorem exists_binary {t : Token} {op : BinaryOp} {ls rs : List Token} {a b : Expr}
    (h : t.spelling = (op.kind, op.symbol)) (l : Operand ls a) (r : Operand rs b) :
    ∃ tier, ∃ p : Phrase tier (ls ++ t :: rs) (.binary op a b t.location.offset),
      p.levels = max l.levels (1 + r.levels) := by
  have hk := (Prod.mk.inj h).1
  cases op with
  | add => exact ⟨_, exists_joined .sum (.add hk) l r⟩
  | subtract => exact ⟨_, exists_joined .sum (.subtract hk) l r⟩
  | multiply => exact ⟨_, exists_joined .product (.multiply hk) l r⟩
  | divide => exact ⟨_, exists_joined .product (.divide hk) l r⟩
  | power => exact ⟨_, exists_power hk l r⟩
  | modulo => exact ⟨_, exists_joined .product (.modulo hk) l r⟩
  | equal => exact ⟨_, exists_joined .comparison (.equal hk) l r⟩
  | notEqual => exact ⟨_, exists_joined .comparison (.notEqual hk) l r⟩
  | lessThan => exact ⟨_, exists_joined .comparison (.lessThan hk) l r⟩
  | lessEqual => exact ⟨_, exists_joined .comparison (.lessEqual hk) l r⟩
  | greaterThan => exact ⟨_, exists_joined .comparison (.greaterThan hk) l r⟩
  | greaterEqual => exact ⟨_, exists_joined .comparison (.greaterEqual hk) l r⟩
  | and => exact ⟨_, exists_joined .and (.and (.inr (isWord_of_spelling h))) l r⟩
  | or => exact ⟨_, exists_joined .or (.or (.inr (isWord_of_spelling h))) l r⟩
  | concat => exact ⟨_, exists_joined .concat (.concat hk) l r⟩

theorem exists_binary_group {opening t close : Token} {op : BinaryOp} {ls rs : List Token}
    {a b : Expr} (ho : opening.kind = .leftParen) (h : t.spelling = (op.kind, op.symbol))
    (hc : close.kind = .rightParen) (l : Operand ls a) (r : Operand rs b) :
    ∃ q : Operand (opening :: (ls ++ t :: (rs ++ [close]))) (.binary op a b t.location.offset),
      q.levels = 1 + max l.levels (1 + r.levels) := by
  obtain ⟨tier, p, hp⟩ := exists_binary h l r
  obtain ⟨q, hq⟩ := exists_group ho p hc
  have hgroup : ∃ q : Operand (opening :: (ls ++ t :: rs ++ [close]))
      (.binary op a b t.location.offset), q.levels = 1 + max l.levels (1 + r.levels) :=
    ⟨q, by rw [hq, hp]⟩
  rwa [List.append_assoc] at hgroup

theorem exists_unary {t : Token} {op : UnaryOp} {ts : List Token} {e : Expr}
    (h : t.spelling = op.spelling) (p : Operand ts e) :
    ∃ tier, ∃ q : Phrase tier (t :: ts) (.unary op e t.location.offset),
      q.levels = 1 + p.levels := by
  have hk := (Prod.mk.inj h).1
  cases op with
  | negate =>
    refine ⟨.sign, .minus hk (.operand p), ?_⟩
    simp only [Phrase.levels]; omega
  | not =>
    obtain ⟨q, hq⟩ := p.exists_phrase .not
    refine ⟨.not, .bang hk q, ?_⟩
    simp only [Phrase.levels]; omega

theorem exists_literal {t : Token} {v : Literal} (hv : v.WellFormed) (h : t.spelling = v.spelling) :
    ∃ p : Operand [t] (.literal v t.location.offset), p.levels = 0 := by
  obtain ⟨hk, hw⟩ := Prod.mk.inj h
  cases v with
  | number d =>
    have hd : Decimal.read t.text = .ok d := by
      rw [hw]
      exact Decimal.read_toText hv
    exact ⟨.number hk hd, rfl⟩
  | string s =>
    have hp : ∃ p : Operand [t] (.literal (.string (Quoted.decode t.text)) t.location.offset),
        p.levels = 0 := ⟨.string hk, rfl⟩
    rwa [hw, Quoted.decode_encode] at hp
  | boolean b => exact ⟨.booleanWord b (isWord_of_spelling (by cases b <;> exact h)), rfl⟩
  | null => exact ⟨.null (.inr (isWord_of_spelling h)), rfl⟩

theorem path_of_spelling {ts : List Token} {names : List String}
    (h : ts.map Token.spelling = spellNames names) : Path ts names := by
  induction names generalizing ts with
  | nil =>
    rw [List.map_eq_nil_iff.1 h]
    exact .nil
  | cons n ns ih =>
    obtain ⟨point, us, rfl, hp, hus⟩ := List.map_eq_cons_iff.1 h
    obtain ⟨name, vs, rfl, hn, hvs⟩ := List.map_eq_cons_iff.1 hus
    obtain ⟨hk, rfl⟩ := Prod.mk.inj hn
    exact .cons (Prod.mk.inj hp).1 hk (ih hvs)

theorem exists_path {ts : List Token} {path : List String} (hp : WellFormedPath path)
    (h : ts.map Token.spelling = spellPath path) :
    ∃ place, ∃ p : Operand ts (.field path place), p.levels = 0 := by
  cases path with
  | nil => cases hp
  | cons first names =>
    obtain ⟨hf, -⟩ := hp
    rw [spellPath] at h
    rcases hf with ⟨hf, hr⟩ | ⟨w, -, rfl⟩
    · rw [spellFirst_of_isName hf] at h
      obtain ⟨t, us, rfl, ht, hus⟩ := List.map_eq_cons_iff.1 h
      obtain ⟨hk, rfl⟩ := Prod.mk.inj ht
      exact ⟨_, .path hk (path_of_spelling hus) hr, rfl⟩
    · rw [spellFirst_global] at h
      obtain ⟨t, us, rfl, ht, hus⟩ := List.map_eq_cons_iff.1 h
      obtain ⟨name, vs, rfl, hn, hvs⟩ := List.map_eq_cons_iff.1 hus
      obtain ⟨hk, rfl⟩ := Prod.mk.inj hn
      exact ⟨_, .global (Prod.mk.inj ht).1 hk (path_of_spelling hvs), rfl⟩

mutual

theorem exists_operand : (e : Expr) → e.WellFormed → ∀ ts : List Token,
    ts.map Token.spelling = e.spelling →
      ∃ e', ∃ p : Operand ts e', p.levels = e.levels ∧ e'.unplaced = e.unplaced
  | .binary op l r _, he, ts, h => by
    obtain ⟨opening, us, rfl, ho, hus⟩ := List.map_eq_cons_iff.1 h
    obtain ⟨ls, vs, rfl, hls, hvs⟩ := List.map_eq_append_iff.1 hus
    obtain ⟨t, ws, rfl, ht, hws⟩ := List.map_eq_cons_iff.1 hvs
    obtain ⟨rs, cs, rfl, hrs, hcs⟩ := List.map_eq_append_iff.1 hws
    obtain ⟨close, rfl, hc⟩ := List.map_eq_singleton_iff.1 hcs
    obtain ⟨a, left, hl, ha⟩ := exists_operand l he.1 ls hls
    obtain ⟨b, right, hr, hb⟩ := exists_operand r he.2 rs hrs
    obtain ⟨q, hq⟩ := exists_binary_group (Prod.mk.inj ho).1 ht (Prod.mk.inj hc).1 left right
    refine ⟨_, q, ?_, by simp only [Expr.unplaced, ha, hb]⟩
    rw [hq, hl, hr, Expr.levels]
  | .unary op e _, he, ts, h => by
    obtain ⟨opening, us, rfl, ho, hus⟩ := List.map_eq_cons_iff.1 h
    obtain ⟨t, vs, rfl, ht, hvs⟩ := List.map_eq_cons_iff.1 hus
    obtain ⟨ws, cs, rfl, hws, hcs⟩ := List.map_eq_append_iff.1 hvs
    obtain ⟨close, rfl, hc⟩ := List.map_eq_singleton_iff.1 hcs
    obtain ⟨a, operand, hl, ha⟩ := exists_operand e he ws hws
    obtain ⟨tier, p, hp⟩ := exists_unary ht operand
    obtain ⟨q, hq⟩ := exists_group (Prod.mk.inj ho).1 p (Prod.mk.inj hc).1
    refine ⟨_, q, ?_, by simp only [Expr.unplaced, ha]⟩
    rw [hq, hp, hl, Expr.levels]
    omega
  | .call name args _, he, ts, h => by
    obtain ⟨t, us, rfl, ht, hus⟩ := List.map_eq_cons_iff.1 h
    obtain ⟨opening, vs, rfl, ho, hvs⟩ := List.map_eq_cons_iff.1 hus
    obtain ⟨ws, cs, rfl, hws, hcs⟩ := List.map_eq_append_iff.1 hvs
    obtain ⟨close, rfl, hc⟩ := List.map_eq_singleton_iff.1 hcs
    obtain ⟨hk, rfl⟩ := Prod.mk.inj ht
    -- the grammar has a rule of its own for a call without arguments
    by_cases hargs : args = []
    · subst hargs
      obtain rfl := List.map_eq_nil_iff.1 hws
      exact ⟨_, .emptyCall hk (Prod.mk.inj ho).1 (Prod.mk.inj hc).1, rfl, rfl⟩
    · obtain ⟨es, a, hl, ha⟩ := exists_arguments args hargs he.2 ws hws close (Prod.mk.inj hc).1
      refine ⟨_, .call hk (Prod.mk.inj ho).1 a, ?_, by simp only [Expr.unplaced, ha]⟩
      rw [Operand.levels, hl, Expr.levels_call hargs]
  | .literal v _, he, ts, h => by
    obtain ⟨t, rfl, ht⟩ := List.map_eq_singleton_iff.1 h
    obtain ⟨p, hp⟩ := exists_literal he ht
    exact ⟨_, p, hp, rfl⟩
  | .field path _, he, ts, h => by
    obtain ⟨place, p, hp⟩ := exists_path he h
    exact ⟨_, p, hp, rfl⟩

theorem exists_arguments : (es : List Expr) → es ≠ [] → Expr.WellFormedList es →
    ∀ ts : List Token, ts.map Token.spelling = Expr.spellArgs es →
      ∀ close : Token, close.kind = .rightParen → ∃ args, ∃ a : Arguments (ts ++ [close]) args,
        a.levels = 1 + Expr.levelsList es ∧ Expr.unplacedList args = Expr.unplacedList es
  | [], hne, _, _, _, _, _ => absurd rfl hne
  | [e], _, he, ts, h, close, hc => by
    obtain ⟨a, p, hp, ha⟩ := exists_operand e he.1 ts h
    obtain ⟨q, hq⟩ := p.exists_phrase .or
    refine ⟨_, .last q hc, ?_, by simp only [Expr.unplacedList, ha]⟩
    simp only [Arguments.levels, Expr.levelsList]
    omega
  | e :: f :: es, _, he, ts, h, close, hc => by
    obtain ⟨us, vs, rfl, hus, hvs⟩ := List.map_eq_append_iff.1 h
    obtain ⟨comma, ws, rfl, hcomma, hws⟩ := List.map_eq_cons_iff.1 hvs
    obtain ⟨a, p, hp, ha⟩ := exists_operand e he.1 us hus
    obtain ⟨q, hq⟩ := p.exists_phrase .or
    obtain ⟨args, rest, hr, hargs⟩ := exists_arguments (f :: es) (by simp) he.2 ws hws close hc
    have hmore : ∃ b : Arguments (us ++ comma :: (ws ++ [close])) (a :: args),
        b.levels = 1 + Expr.levelsList (e :: f :: es) := by
      refine ⟨.more q (Prod.mk.inj hcomma).1 rest, ?_⟩
      simp only [Arguments.levels, Expr.levelsList] at hr ⊢
      omega
    rw [← List.cons_append, ← List.append_assoc] at hmore
    obtain ⟨b, hb⟩ := hmore
    refine ⟨_, b, hb, ?_⟩
    rw [Expr.unplacedList, ha, hargs]
    simp only [Expr.unplacedList]

end

end Grammar

open Grammar

theorem Expr.reads_source (e : Expr) (h : e.WellFormed) : Reads e.render.toList e.spelling := by
  have hr := Expr.reads_render e h [] [] (by simp [Closes]) .nil
  rwa [List.append_nil, List.append_nil] at hr

/-- The canonical form of `e` reads as `e`, up to places, if the limit leaves its levels and one for
the expression itself. Otherwise it fails for want of levels. -/
theorem parseFormula_render_levels {e : Expr} (h : e.WellFormed) (limit : Nat) :
    (1 + e.levels ≤ limit →
      ∃ e', parseFormula limit e.render = .ok e' ∧ e'.unplaced = e.unplaced) ∧
    (limit < 1 + e.levels →
      ∃ l, parseFormula limit e.render = .error (.parse ⟨.tooDeep limit, some l⟩)) := by
  obtain ⟨stream, hb, hs⟩ := (e.reads_source h).parseFormula
  obtain ⟨e', p, hp, he'⟩ := exists_operand e h stream.body hb
  obtain ⟨q, hq⟩ := p.exists_phrase .or
  constructor
  · intro hl
    have hread := TokenStream.readFormula_eq_ok_iff.2 ⟨q, show q.levels < limit by omega⟩
    exact ⟨e', by rw [hs, hread]; rfl, he'⟩
  · intro hl
    obtain ⟨l, hread⟩ := TokenStream.readFormula_of_levels_ge q (show limit ≤ q.levels by omega)
    exact ⟨l, by rw [hs, hread]; rfl⟩

/-- The canonical form of `e` is accepted under the limit, as a tree like `e` that is written in the
same way. -/
def Expr.ReadsBack (e : Expr) (limit : Nat) : Prop :=
  ∃ e', parseFormula limit e.render = .ok e' ∧ e'.sameShape e = true ∧ e'.render = e.render

/-- Round trip of every tree that text can stand for, with the exact limit that it needs. -/
theorem parseFormula_render (e : Expr) (h : e.WellFormed) (limit : Nat) :
    (1 + e.levels ≤ limit → e.ReadsBack limit) ∧
    (limit < 1 + e.levels →
      ∃ error : ParseError, parseFormula limit e.render = .error (.parse error) ∧
        error.message = "Expression is nested too deeply (limit is " ++ limit.repr ++ ")") ∧
    (2 * e.depth - 1 ≤ limit → e.ReadsBack limit) := by
  obtain ⟨hok, herror⟩ := parseFormula_render_levels h limit
  have hback (hl : 1 + e.levels ≤ limit) : e.ReadsBack limit := by
    obtain ⟨e', hp, he'⟩ := hok hl
    exact ⟨e', hp, Expr.sameShape_of_unplaced_eq he', Expr.render_of_unplaced_eq he'⟩
  refine ⟨hback, fun hl => ?_, fun hl => ?_⟩
  · obtain ⟨l, hp⟩ := herror hl
    exact ⟨_, hp, rfl⟩
  · have hd := e.levels_lt_depth
    exact hback (by omega)

theorem parseFormula_render_global_word :
    (Expr.call "not" [.binary .and (.field ["NOT", "x"] 9) (.unary .not (.field ["$TRUE"] 9) 9) 9,
      .literal (.string "it's") 9, .literal (.number ⟨150, 2, by decide, by decide⟩) 9] 9).render =
        "not((NOT.x AND (!$TRUE)), 'it\\'s', 1.50)" ∧
    (Expr.call "not" [.binary .and (.field ["NOT", "x"] 9) (.unary .not (.field ["$TRUE"] 9) 9) 9,
      .literal (.string "it's") 9, .literal (.number ⟨150, 2, by decide, by decide⟩) 9] 9).ReadsBack
        6 := by
  refine ⟨by decide +kernel, (parseFormula_render _ ?_ 6).1 (by decide)⟩
  refine ⟨by decide +kernel, ⟨⟨?_, ?_⟩, trivial, ?_, trivial⟩⟩
  · exact ⟨.inl ⟨by decide +kernel, by simp⟩, by decide +kernel⟩
  · exact ⟨.inr ⟨"TRUE", by decide +kernel, rfl⟩, by simp⟩
  · change (0 : Int) ≤ 150
    decide

/-- When the canonical form of an accepted formula is accepted under the same limit: if the levels
of its own parentheses fit as well. Otherwise it fails for want of levels, and for no other
reason. -/
theorem render_accepted_iff {limit : Nat} {s : String} {e : Expr}
    (h : parseFormula limit s = .ok e) :
    ((∃ e', parseFormula limit e.render = .ok e' ∧ e.sameShape e' = true) ↔
      1 + e.levels ≤ limit) ∧
    (limit < 1 + e.levels →
      ∃ l, parseFormula limit e.render = .error (.parse ⟨.tooDeep limit, some l⟩)) := by
  obtain ⟨hok, herror⟩ := parseFormula_render_levels (Expr.wellFormed_of_parseFormula h) limit
  refine ⟨⟨fun ⟨e', hp, _⟩ => ?_, fun hl => ?_⟩, herror⟩
  · by_cases hl : 1 + e.levels ≤ limit
    · exact hl
    · obtain ⟨l, hp'⟩ := herror (by omega)
      rw [hp'] at hp
      cases hp
  · obtain ⟨e', hp, he'⟩ := hok hl
    exact ⟨e', hp, Expr.sameShape_of_unplaced_eq he'.symm⟩

theorem render_sum_accepted : ∃ e, parseFormula 3 "1 + 1" = .ok e ∧
    ∃ e', parseFormula 3 e.render = .ok e' ∧ e.sameShape e' = true := by
  have h : (parseFormula 3 "1 + 1").toOption.map Expr.levels = some 2 := by decide +kernel
  obtain ⟨e, he, hl⟩ := exists_ok_of_map h
  exact ⟨e, he, (render_accepted_iff he).1.2 (by omega)⟩

/-- The parentheses around a sum take a level that the sum itself did not need. -/
theorem render_sum_refused : ∃ e, parseFormula 2 "1 + 1" = .ok e ∧
    ¬ ∃ e', parseFormula 2 e.render = .ok e' ∧ e.sameShape e' = true := by
  have h : (parseFormula 2 "1 + 1").toOption.map
      (fun e => (parseFormula 2 e.render).toOption.isNone) = some true := by decide +kernel
  obtain ⟨e, he, hr⟩ := exists_ok_of_map h
  refine ⟨e, he, fun ⟨e', hp, _⟩ => ?_⟩
  rw [hp] at hr
  cases hr

end RuleFormula
