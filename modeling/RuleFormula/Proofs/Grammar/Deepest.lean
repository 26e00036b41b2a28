import RuleFormula.Proofs.Formula
import RuleFormula.Proofs.Grammar.Depth
import RuleFormula.Proofs.Grammar.Stream
import RuleFormula.Proofs.Token.Follow

set_option autoImplicit false

namespace RuleFormula.Grammar

theorem powerDepth_pos (levels : Nat) : 1 ≤ powerDepth levels := by
  cases levels with
  | zero => exact Nat.le_refl 1
  | succ l => exact Nat.succ_pos _

/-- Lexemes that are read, wherever they stand, as a phrase of so many levels, with a tree of this
depth. -/
structure Yields (tier : Tier) (lexemes : List (Token.Kind × String))
    (levels depth : Nat) : Prop where
  scan : ∀ s ∈ lexemes, Lexeme.scan s.2.toList = .token s.1 s.2.toList.length
  phrase : ∀ ts : List Token, ts.map Token.spelling = lexemes →
    ∃ e, ∃ p : Phrase tier ts e, p.levels = levels ∧ e.depth = depth

def folds (operator : Token.Kind × String) : Nat → List (Token.Kind × String)
  | 0 => []
  | n + 1 => operator :: (.identifier, "x") :: folds operator n

theorem exists_field {t : Token} (h : t.spelling = (.identifier, "x")) (tier : Tier) :
    ∃ e, ∃ p : Phrase tier [t] e, p.levels = 0 ∧ e.depth = 1 := by
  obtain ⟨hk, ht⟩ := Prod.mk.inj h
  have hr : ¬ IsReserved t.text := by
    rw [ht]
    decide
  obtain ⟨p, hp⟩ := (Operand.path hk .nil fun _ => hr).exists_phrase tier
  exact ⟨_, p, hp, rfl⟩

theorem exists_folds {tier next : Tier} {op : BinaryOp} {operator : Token.Kind × String}
    (hj : ∀ t : Token, t.spelling = operator → Joins t tier op) (n : Nat) {ts : List Token}
    (hts : ts.map Token.spelling = folds operator n) {left : Expr} (h : 1 ≤ left.depth) :
    ∃ e, ∃ c : Chain tier next ts left e, c.levels = n ∧ e.depth = left.depth + n := by
  induction n generalizing ts left with
  | zero =>
    obtain rfl := List.map_eq_nil_iff.1 hts
    exact ⟨left, .done, rfl, rfl⟩
  | succ n ih =>
    obtain ⟨t, us, rfl, ht, hus⟩ := List.map_eq_cons_iff.1 hts
    obtain ⟨x, vs, rfl, hx, hvs⟩ := List.map_eq_cons_iff.1 hus
    obtain ⟨right, p, hp, hd⟩ := exists_field hx next
    have hleft : (Expr.binary op left right t.location.offset).depth = left.depth + 1 := by
      simp only [Expr.depth]
      omega
    have hpos : 1 ≤ (Expr.binary op left right t.location.offset).depth := by omega
    obtain ⟨e, c, hc, he⟩ := ih hvs hpos
    refine ⟨e, .more (hj t ht) p c, ?_, by omega⟩
    simp only [Chain.levels, hp, hc]
    omega

/-- A lexeme that is read alone is read as the same one in front of a space. -/
theorem scan_space {s : Token.Kind × String}
    (h : Lexeme.scan s.2.toList = .token s.1 s.2.toList.length) (rest : List Char) :
    Lexeme.scan (s.2.toList ++ ' ' :: rest) = .token s.1 s.2.toList.length := by
  have halone : Lexeme.Matches s.1 s.2.toList [] :=
    Lexeme.matches_of_scan (by rwa [List.append_nil])
  refine Lexeme.scan_of_matches (halone.follow fun c hc => ?_)
  cases hc
  exact .inr (.inl (by decide))

def spaced (lexemes : List (Token.Kind × String)) : List Char :=
  lexemes.flatMap fun s => s.2.toList ++ [' ']

theorem reads_spaced {lexemes : List (Token.Kind × String)}
    (h : ∀ s ∈ lexemes, Lexeme.scan s.2.toList = .token s.1 s.2.toList.length) :
    Reads (spaced lexemes) lexemes := by
  induction lexemes with
  | nil => exact .nil
  | cons s lexemes ih =>
    have hread := Reads.lexeme (scan_space (h s (.head _)) (spaced lexemes))
      (Reads.space (ih fun t ht => h t (.tail _ ht)))
    rw [String.ofList_toList] at hread
    simpa [spaced] using hread

namespace Yields

variable {tier next : Tier} {lexemes : List (Token.Kind × String)} {levels depth : Nat}

theorem field (tier : Tier) : Yields tier [(.identifier, "x")] 0 1 := by
  refine ⟨by decide +kernel, fun ts hts => ?_⟩
  obtain ⟨t, rfl, ht⟩ := List.map_eq_singleton_iff.1 hts
  exact exists_field ht tier

theorem scan_folds {operator : Token.Kind × String}
    (h : Lexeme.scan operator.2.toList = .token operator.1 operator.2.toList.length) (n : Nat) :
    ∀ s ∈ folds operator n, Lexeme.scan s.2.toList = .token s.1 s.2.toList.length := by
  induction n with
  | zero => simp [folds]
  | succ n ih =>
    intro s hs
    rcases List.mem_cons.1 hs with rfl | hs
    · exact h
    · rcases List.mem_cons.1 hs with rfl | hs
      · decide +kernel
      · exact ih s hs

theorem chain {op : BinaryOp} (h : Yields next lexemes levels depth) (rule : Chains tier next)
    (hd : 1 ≤ depth) (operator : Token.Kind × String)
    (hj : ∀ t : Token, t.spelling = operator → Joins t tier op)
    (hs : Lexeme.scan operator.2.toList = .token operator.1 operator.2.toList.length) :
    Yields tier (lexemes ++ folds operator levels) levels (depth + levels) := by
  refine ⟨List.forall_mem_append.2 ⟨h.scan, scan_folds hs levels⟩, fun ts hts => ?_⟩
  obtain ⟨us, vs, rfl, hus, hvs⟩ := List.map_eq_append_iff.1 hts
  obtain ⟨left, p, hp, hleft⟩ := h.phrase us hus
  obtain ⟨e, c, hc, he⟩ : ∃ e, ∃ c : Chain tier next vs left e,
      c.levels = levels ∧ e.depth = left.depth + levels := exists_folds hj levels hvs (by omega)
  refine ⟨e, .chain rule p c, ?_, by omega⟩
  simp only [Phrase.levels, hp, hc, Nat.max_self]

theorem not (h : Yields .comparison lexemes levels depth) : Yields .not lexemes levels depth := by
  refine ⟨h.scan, fun ts hts => ?_⟩
  obtain ⟨e, p, hp⟩ := h.phrase ts hts
  exact ⟨e, .comparison p, hp⟩

theorem exists_chains (h : Yields .power lexemes levels depth) (hd : 1 ≤ depth) :
    ∃ more, Yields .or more levels (depth + 6 * levels) := by
  have star := h.chain .product hd (.star, "*") (fun t ht => .multiply (Prod.mk.inj ht).1)
    (by decide +kernel)
  have plus := star.chain .sum (by omega) (.plus, "+") (fun t ht => .add (Prod.mk.inj ht).1)
    (by decide +kernel)
  have ampersand := plus.chain .concat (by omega) (.ampersand, "&")
    (fun t ht => .concat (Prod.mk.inj ht).1) (by decide +kernel)
  have equals := ampersand.chain .comparison (by omega) (.equals, "=")
    (fun t ht => .equal (Prod.mk.inj ht).1) (by decide +kernel)
  have and := equals.not.chain .and (by omega) (.and, "&&")
    (fun t ht => .and (.inl (Prod.mk.inj ht).1))
    (by decide +kernel)
  have or := and.chain .or (by omega) (.or, "||") (fun t ht => .or (.inl (Prod.mk.inj ht).1))
    (by decide +kernel)
  rw [show depth + levels + levels + levels + levels + levels + levels =
      depth + 6 * levels by omega] at or
  exact ⟨_, or⟩

theorem power (h : Yields .or lexemes levels depth) :
    Yields .power ((.identifier, "f") :: (.leftParen, "(") :: (lexemes ++
      [(.rightParen, ")"), (.caret, "^"), (.identifier, "x")])) (levels + 1) (depth + 2) := by
  refine ⟨?_, fun ts hts => ?_⟩
  · simp only [List.forall_mem_cons, List.forall_mem_append]
    refine ⟨by decide +kernel, by decide +kernel, h.scan, ?_⟩
    decide +kernel
  · obtain ⟨f, us, rfl, hf, hus⟩ := List.map_eq_cons_iff.1 hts
    obtain ⟨opening, vs, rfl, ho, hvs⟩ := List.map_eq_cons_iff.1 hus
    obtain ⟨ws, after, rfl, hws, hafter⟩ := List.map_eq_append_iff.1 hvs
    obtain ⟨close, us, rfl, hc, hus⟩ := List.map_eq_cons_iff.1 hafter
    obtain ⟨caret, us, rfl, hx, hus⟩ := List.map_eq_cons_iff.1 hus
    obtain ⟨x, rfl, hfield⟩ := List.map_eq_singleton_iff.1 hus
    obtain ⟨e, p, hp, hd⟩ := h.phrase ws hws
    obtain ⟨exponent, q, hq, hqd⟩ := exists_field hfield .power
    have hassoc : f :: opening :: (ws ++ [close, caret, x]) =
        f :: opening :: (ws ++ [close]) ++ caret :: [x] := by simp
    rw [hassoc]
    refine ⟨_, .power (.operand (.call (Prod.mk.inj hf).1 (Prod.mk.inj ho).1
      (.last p (Prod.mk.inj hc).1)))
      (Prod.mk.inj hx).1 q, ?_, ?_⟩
    · simp only [Phrase.levels, Operand.levels, Arguments.levels, hp, hq]
      omega
    · simp only [Expr.depth, Expr.depthList, hd, hqd]
      omega

theorem exists_power (levels : Nat) :
    ∃ lexemes, Yields .power lexemes levels (powerDepth levels) := by
  induction levels with
  | zero => exact ⟨_, field .power⟩
  | succ l ih =>
    obtain ⟨lexemes, h⟩ := ih
    obtain ⟨more, hmore⟩ := h.exists_chains (powerDepth_pos l)
    exact ⟨_, hmore.power⟩

end Yields

end Grammar

open Grammar

theorem exists_parseFormula_of_yields {lexemes : List (Token.Kind × String)} {levels depth : Nat}
    (h : Yields .or lexemes levels depth) {limit : Nat} (hl : levels < limit) :
    ∃ s e, parseFormula limit s = .ok e ∧ e.depth = depth := by
  have hr := reads_spaced h.scan
  rw [← String.toList_ofList (l := spaced lexemes)] at hr
  obtain ⟨stream, hbody, hparse⟩ := hr.parseFormula
  obtain ⟨e, p, hp, hd⟩ := h.phrase stream.body hbody
  refine ⟨String.ofList (spaced lexemes), e, ?_, hd⟩
  rw [hparse, mapError_eq_ok]
  exact TokenStream.readFormula_eq_ok_iff.2 ⟨p, by omega⟩

/-- No tree is deeper than the bound for its limit, however many tokens it is read off, and under
every limit some source is read as a tree that is as deep. -/
theorem depth_bound_attained (limit : Nat) (h : 1 ≤ limit) :
    (∀ ts e, parseTokens limit ts = .ok e → e.depth ≤ 3 * (limit * limit) - limit - 1) ∧
    ∃ s e, parseFormula limit s = .ok e ∧ e.depth = 3 * (limit * limit) - limit - 1 := by
  refine ⟨fun ts e hts => ?_, ?_⟩
  · obtain ⟨s, -, -, hread⟩ := exists_ended_of_parseTokens hts
    exact TokenStream.depth_le_of_readFormula hread
  · obtain ⟨l, rfl⟩ : ∃ l, limit = l + 1 := ⟨limit - 1, by omega⟩
    obtain ⟨lexemes, hpower⟩ := Yields.exists_power l
    obtain ⟨more, hmore⟩ := hpower.exists_chains (powerDepth_pos l)
    have hdepth : powerDepth l + 6 * l = 3 * ((l + 1) * (l + 1)) - (l + 1) - 1 := by
      have hl := powerDepth_eq l
      simp only [Nat.add_mul, Nat.mul_add]
      omega
    rw [← hdepth]
    exact exists_parseFormula_of_yields hmore (Nat.lt_succ_self l)

theorem depth_bound_attained_two : (∀ ts e, parseTokens 2 ts = .ok e → e.depth ≤ 9) ∧
    ∃ s e, parseFormula 2 s = .ok e ∧ e.depth = 9 :=
  depth_bound_attained 2 (by decide)

end RuleFormula
