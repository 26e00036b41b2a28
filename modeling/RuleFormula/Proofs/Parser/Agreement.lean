import RuleFormula.Proofs.Grammar.Following
import RuleFormula.Proofs.Parser.Steps

/-! A parser that is kept goes the way of the readers, which have their levels as a number and
the tokens as a list. So each of its steps ends, no step looks behind the last token, and the
levels that are open in front of an expression are those that are open behind it, however its
reading ends. -/
set_option autoImplicit false

namespace RuleFormula

open Grammar
open Parser.Action

namespace Parser

variable {α : Type} {s : TokenStream} {limit depth levels : Nat}

theorem read_eq_chain {tier next : Tier} (rule : Chains tier next) : read tier = chain tier := by
  cases rule <;> rw [Action.read] <;> simp

theorem chain_eq (tier : Tier) : chain tier = fun p => do
    let (result, q) ← links tier p
    return (result, { q with depth := p.depth }) := by
  funext p
  rw [Action.chain]

/-- With so many levels open and so many left, what an action gives is what a reader finds. -/
structure Agreement (s : TokenStream) (limit depth levels : Nat) : Prop where
  read : ∀ (tier : Tier) (ts : List Token),
    Gives s limit (read tier) depth depth ts (tier.reader (Inner.within levels) ts)
  folds : ∀ {tier next : Tier} (left : Expr), Chains tier next → ∀ ts : List Token, ∃ after,
    Gives s limit (folds tier left) depth after ts (extend (Inner.within levels) tier left ts)

section

variable (hs : s.Ended)

include hs

theorem unexpected_gives (wanted : Expectation) {ts : List Token} :
    Gives s limit (unexpected wanted : Action α) depth depth ts (.error (.expected wanted) ts) := by
  intro hts
  obtain ⟨used, hbody⟩ := hts
  have hend := hs.kind_head_iff hbody.symm
  refine Gives.fail ?_ ⟨used, hbody⟩
  cases ts with
  | nil => simp [TokenStream.explain, TokenStream.current, hs.1]
  | cons t ts =>
    have ht : t.kind ≠ .endOfInput := fun h => List.cons_ne_nil t ts (hend.1 h)
    simp [TokenStream.explain, TokenStream.current, ht]

theorem expect_gives {kind : Token.Kind} (hk : kind ≠ .endOfInput) (wanted : Expectation)
    (ts : List Token) :
    Gives s limit (expect kind wanted) depth depth ts (Grammar.expect kind wanted ts) := by
  cases ts with
  | nil =>
    have he : s.ending.kind ≠ kind := fun h => hk (h.symm.trans hs.1)
    refine .current_end ?_
    simp only [he, if_false]
    exact unexpected_gives hs wanted
  | cons t ts =>
    refine .current_head ?_
    by_cases h : t.kind = kind
    · simp only [Grammar.expect, h, if_true]
      exact .advance
    · simp only [Grammar.expect, h, if_false]
      exact unexpected_gives hs wanted

theorem names_gives (path : List String) (ts : List Token) :
    Gives s limit (names path) depth depth ts ((segments ts).map (path ++ ·)) := by
  induction hn : ts.length using Nat.strongRecOn generalizing path ts with
  | _ n ih =>
    rw [Action.names]
    cases ts with
    | nil =>
      refine .current_end ?_
      simp only [hs.1, reduceCtorEq, if_false]
      rw [segments, Outcome.map_ok, List.append_nil]
      exact .pure path
    | cons t ts =>
      refine .current_head ?_
      by_cases hd : t.kind = .dot
      · simp only [hd, if_true, segments_of_dot hd, Outcome.map_andThen, Outcome.map_map]
        refine .advance_bind (.andThen (expect_gives hs (by simp) _ ts) fun name us hname => ?_)
        obtain ⟨rfl, -⟩ := expect_eq_ok hname
        have h := ih us.length (by simp only [List.length_cons] at hn; omega)
          (path ++ [name.text]) us rfl
        simpa only [List.append_assoc, List.singleton_append] using h
      · simp only [hd, if_false, segments_of_ne_dot hd, Outcome.map_ok, List.append_nil]
        exact .pure path

theorem path_gives (first : String) (position : Nat) (ts : List Token) :
    Gives s limit (path first position) depth depth ts (Grammar.path first position ts) := by
  have names : Gives s limit (names [first]) depth depth ts _ := names_gives hs [first] ts
  have h := names.map fun names => Expr.field names position
  rw [Outcome.map_map] at h
  exact h

omit hs in
theorem word_gives (t : Token) (ts : List Token) :
    Gives s limit (word t) depth depth ts (Grammar.word t ts) := by
  unfold Action.word Grammar.word
  cases t.keyword? with
  | none => exact .pure _
  | some k =>
    cases k with
    | true | false | null => exact .pure _
    | and | or | not => exact .throw (.keyword t)

omit hs in
theorem leaf_gives (t : Token) (value : Literal) (ts : List Token) :
    Gives s limit (leaf t value) depth depth (t :: ts) (Grammar.leaf t value ts) :=
  .advance_bind (.pure _)

section

variable (hl : depth + levels = limit)
  (below : ∀ l < levels, ∀ d, d + l = limit → Agreement s limit d l)

include hl below

omit hs in
theorem nested_gives (tier : Tier) (ts : List Token) :
    Gives s limit (nested tier) depth depth ts
      (enter (Inner.within levels) (fun i => i.read tier) ts) := by
  rw [Action.nested]
  cases levels with
  | zero =>
    obtain rfl : depth = limit := hl
    exact Gives.deepen_limit.bind_error
  | succ l =>
    have inside := below l (Nat.lt_succ_self l) (depth + 1) (by omega)
    exact (Gives.deepen (by omega)).bind_ok (inside.read tier ts).closed

theorem arguments_gives (function : String) (args : List Expr) (ts : List Token) :
    Gives s limit (arguments function args) depth depth ts
      ((Grammar.arguments (Inner.within levels) function (ts.length + 1) ts).map (args ++ ·)) := by
  induction hn : ts.length using Nat.strongRecOn generalizing args ts with
  | _ n ih =>
    subst hn
    rw [Action.arguments, arguments_eq_andThen, Outcome.map_andThen]
    refine .andThen (nested_gives hl below .or ts) fun e us he => ?_
    obtain ⟨used, rfl, -⟩ := enter_takes (fun l _ => sound l) .or ts e us he
    cases us with
    | nil =>
      refine .current_end ?_
      simp only [hs.1, reduceCtorEq, if_false]
      exact unexpected_gives hs _
    | cons t us =>
      refine .current_head ?_
      simp only [afterArgument]
      by_cases hc : t.kind = .comma
      · simp only [hc, if_true, Outcome.map_map]
        have h := ih us.length (by simp only [List.length_append, List.length_cons]; omega)
          (args ++ [e]) us rfl
        refine .advance_bind ?_
        simpa only [List.append_assoc, List.singleton_append] using h
      · simp only [hc, if_false]
        by_cases hr : t.kind = .rightParen
        · simp only [hr, if_true]
          exact .advance_bind (.pure _)
        · simp only [hr, if_false]
          exact unexpected_gives hs _

theorem argumentList_gives (function : String) (ts : List Token) :
    Gives s limit (argumentList function) depth depth ts
      (Grammar.argumentList (Inner.within levels) function ts) := by
  have some := arguments_gives hs hl below function [] ts
  simp only [List.nil_append, Outcome.map_self] at some
  rw [Action.argumentList]
  cases ts with
  | nil =>
    refine .current_end ?_
    simp only [hs.1, reduceCtorEq, if_false]
    exact some
  | cons t ts =>
    refine .current_head ?_
    simp only [Grammar.argumentList]
    by_cases hr : t.kind = .rightParen
    · simp only [hr, if_true]
      exact .advance_bind (.pure [])
    · simp only [hr, if_false]
      exact some

theorem named_gives (name : Token) (ts : List Token) :
    Gives s limit named depth depth (name :: ts) (Grammar.named (Inner.within levels) name ts) := by
  rw [Action.named]
  refine Gives.peek.bind_ok (.advance_bind ?_)
  cases ts with
  | nil =>
    simp only [List.head?_nil, Option.getD_none, Option.map_some, hs.1]
    exact word_gives name []
  | cons t ts =>
    simp only [List.head?_cons, Option.getD_some, Option.map_some, Grammar.named]
    split
    next h =>
      rw [if_pos (Option.some.inj h)]
      exact .advance_bind ((argumentList_gives hs hl below name.text ts).map _)
    next h =>
      have hd := Option.some.inj h
      simp only [hd, reduceCtorEq, if_true, if_false]
      exact path_gives hs _ _ (t :: ts)
    next hno hnd =>
      rw [if_neg fun h => hno (congrArg some h), if_neg fun h => hnd (congrArg some h)]
      exact word_gives name (t :: ts)

theorem operand_gives (ts : List Token) :
    Gives s limit operand depth depth ts (Grammar.operand (Inner.within levels) ts) := by
  rw [Action.operand]
  cases ts with
  | nil =>
    refine .current_end ?_
    simp only [hs.1]
    exact unexpected_gives hs _
  | cons t ts =>
    refine .current_head ?_
    simp only [Grammar.operand]
    cases hk : t.kind with
    | number =>
      cases hd : Decimal.read t.text with
      | ok d => exact leaf_gives t _ ts
      | error e => exact .fail rfl
    | string => exact leaf_gives t _ ts
    | boolean =>
      cases hw : Keyword.ofText? t.text with
      | none => exact .fail rfl
      | some k =>
        cases k with
        | true | false => exact leaf_gives t _ ts
        | null | and | or | not => exact .fail rfl
    | null => exact leaf_gives t _ ts
    | identifier => exact named_gives hs hl below t ts
    | fieldMarker =>
      exact .advance_bind (.andThen (expect_gives hs (by simp) _ ts) fun name us _ =>
        path_gives hs _ _ us)
    | leftParen =>
      exact .advance_bind (.andThen (nested_gives hl below .or ts) fun e us _ =>
        (expect_gives hs (by simp) _ us).map fun _ => e)
    | _ => exact unexpected_gives hs _

theorem sign_gives (ts : List Token) :
    Gives s limit sign depth depth ts (Grammar.sign (Inner.within levels) ts) := by
  have operand := operand_gives hs hl below ts
  rw [Action.sign]
  cases ts with
  | nil =>
    refine .current_end ?_
    simp only [hs.1, reduceCtorEq, if_false]
    exact operand
  | cons t ts =>
    have enter := nested_gives hl below .sign ts
    refine .current_head ?_
    simp only [Grammar.sign]
    by_cases hm : t.kind = .minus
    · simp only [hm, if_true]
      exact .advance_bind (enter.map _)
    · simp only [hm, if_false]
      by_cases hp : t.kind = .plus
      · simp only [hp, if_true]
        exact .advance_bind enter
      · simp only [hp, if_false]
        exact operand

theorem power_gives (ts : List Token) :
    Gives s limit (read .power) depth depth ts (Grammar.power (Inner.within levels) ts) := by
  rw [Action.read, Action.power, power_eq_andThen]
  refine .andThen (sign_gives hs hl below ts) fun base us _ => ?_
  cases us with
  | nil =>
    refine .current_end ?_
    simp only [hs.operator?_ending]
    exact .pure base
  | cons t us =>
    refine .current_head ?_
    simp only [raised]
    cases Tier.power.operator? t with
    | none => exact .pure base
    | some op => exact .advance_bind ((nested_gives hl below .power us).map _)

theorem folds_gives {tier next : Tier} (rule : Chains tier next) (left : Expr) (ts : List Token) :
    ∃ after, Gives s limit (folds tier left) depth after ts
      (extend (Inner.within levels) tier left ts) := by
  rw [Action.folds]
  cases ts with
  | nil =>
    refine ⟨depth, .current_end ?_⟩
    simp only [hs.operator?_ending]
    exact .pure left
  | cons t ts =>
    cases ho : tier.operator? t with
    | none =>
      refine ⟨depth, .current_head ?_⟩
      simp only [extend, ho]
      exact .pure left
    | some op =>
      cases levels with
      | zero =>
        obtain rfl : depth = limit := hl
        refine ⟨depth, .current_head ?_⟩
        simp only [extend_within_zero left ts ho, ho]
        exact Gives.deepen_limit.bind_error
      | succ l =>
        have inside := below l (Nat.lt_succ_self l) (depth + 1) (by omega)
        have opened : Gives s limit Action.deepen depth (depth + 1) (t :: ts) (.ok () (t :: ts)) :=
          .deepen (by omega)
        obtain ⟨after, more⟩ := (inside.read tier.tighter ts).exists_andThen fun right us _ =>
          inside.folds (.binary op left right t.location.offset) rule us
        refine ⟨after, .current_head ?_⟩
        simp only [extend_within_succ l left ts ho, ho]
        exact opened.bind_ok (.advance_bind more)

theorem chain_gives {tier next : Tier} (rule : Chains tier next) (ts : List Token)
    (h : Gives s limit (read next) depth depth ts (next.reader (Inner.within levels) ts)) :
    Gives s limit (read tier) depth depth ts (tier.reader (Inner.within levels) ts) := by
  rw [read_eq_chain rule, chain_eq, rule.reader_eq]
  have links : ∃ after, Gives s limit (links tier) depth after ts
      (Grammar.chain (Inner.within levels) tier (next.reader (Inner.within levels)) ts) := by
    rw [Action.links, rule.tighter_eq]
    exact h.exists_andThen fun first us _ => folds_gives hs hl below rule first us
  obtain ⟨after, links⟩ := links
  exact links.restored

theorem negation_gives (ts : List Token)
    (h : Gives s limit (read .comparison) depth depth ts
      (Grammar.comparison (Inner.within levels) ts)) :
    Gives s limit (read .not) depth depth ts (Grammar.negation (Inner.within levels) ts) := by
  rw [Action.read, Action.negation]
  cases ts with
  | nil =>
    refine .current_end (Gives.peek_end.bind_ok ?_)
    simp only [Token.negates, Token.keyword?, hs.1]
    exact h
  | cons t ts =>
    refine .current_head (Gives.peek.bind_ok ?_)
    simp only [hs.negates_ending, Grammar.negation]
    by_cases hn : t.negates ts.head?
    · simp only [hn, if_true]
      exact .advance_bind ((nested_gives hl below .not ts).map _)
    · simp only [hn]
      exact h

end

theorem agreement (levels : Nat) : ∀ depth, depth + levels = limit →
    Agreement s limit depth levels := by
  induction levels using Nat.strongRecOn with
  | ind levels below =>
    -- Each level that is opened is one of those that are left.
    intro depth hl
    refine ⟨fun tier ts => ?_, fun left rule ts => folds_gives hs hl below rule left ts⟩
    induction tier using Tier.loosening_induction with
    | sign =>
      rw [Action.read]
      exact sign_gives hs hl below ts
    | power => exact power_gives hs hl below ts
    | chain rule h => exact chain_gives hs hl below rule ts h
    | not h => exact negation_gives hs hl below ts h

theorem expression_gives (ts : List Token) :
    Gives s limit Action.expression 0 0 ts (Grammar.expression (Inner.within limit) ts) :=
  nested_gives (Nat.zero_add limit) (fun l _ d h => agreement hs l d h) .or ts

theorem formula_gives (ts : List Token) :
    Gives s limit formula 0 0 ts (complete (Inner.within limit) ts) := by
  rw [formula, complete]
  refine .andThen (expression_gives hs ts) fun e us _ => ?_
  cases us with
  | nil =>
    refine .current_end ?_
    simp only [hs.1, if_true]
    exact .pure e
  | cons t us =>
    refine .current_head ?_
    by_cases ht : t.kind = .endOfInput
    · intro hus
      exact absurd ht (hs.2 t (hus.subset List.mem_cons_self))
    · simp only [ht, if_false]
      exact .throw (.trailing t)

end

end Parser

end RuleFormula
