import RuleFormula.Proofs.Grammar.Lookahead

/-! Each reader goes the way it went with fewer levels, as long as it finds the same tokens and the
same next one. -/
set_option autoImplicit false

namespace RuleFormula.Grammar

variable {α β : Type}

structure Following (levels more : Nat) : Prop where
  read : ∀ (tier : Tier) (ts : List Token),
    FollowsAt (tier.reader (Inner.within levels)) (tier.reader (Inner.within more)) ts
  extend : ∀ {tier next : Tier} (left : Expr), Chains tier next → ∀ ts : List Token,
    FollowsAt (extend (Inner.within levels) tier left) (extend (Inner.within more) tier left) ts

section Keeping

variable (levels : Nat)

theorem enter_keeps (tier : Tier) : Keeps (enter (Inner.within levels) fun i => i.read tier) :=
  .of_takes (enter_takes (fun l _ => sound l) tier) (enter_fails (fun l _ => failing l) tier)

theorem extend_keeps {tier next : Tier} (rule : Chains tier next) (left : Expr) :
    Keeps (extend (Inner.within levels) tier left) :=
  .of_takes ((sound levels).extend left rule) ((failing levels).extend left rule)

theorem arguments_keeps (function : String) :
    Keeps fun ts => arguments (Inner.within levels) function (ts.length + 1) ts :=
  .of_takes (fun ts => arguments_takes (fun l _ => sound l) function (ts.length + 1) ts)
    fun ts _ _ => arguments_fails (fun l _ => failing l) function (ts.length + 1)
      (Nat.lt_succ_self _)

theorem argumentList_keeps (function : String) :
    Keeps (argumentList (Inner.within levels) function) := by
  intro ts
  cases ts with
  | nil => exact arguments_keeps levels function []
  | cons t ts =>
    rw [argumentList]
    split
    · exact List.suffix_cons t ts
    · exact arguments_keeps levels function (t :: ts)

theorem closing_keeps (opened : Location) (e : Expr) :
    Keeps fun ts => (expect .rightParen (.closing opened) ts).map fun _ => e := by
  intro ts
  cases ts with
  | nil => exact List.suffix_refl []
  | cons t ts =>
    rw [Outcome.site_map]
    simp only [expect]
    split
    · exact List.suffix_cons t ts
    · exact List.suffix_refl (t :: ts)

end Keeping

/-- The number that the arguments count down decides nothing while it is above the number of
tokens. -/
theorem arguments_congr {levels : Nat} (function : String) {m n : Nat} {ts : List Token}
    (hm : ts.length < m) (hn : ts.length < n) :
    arguments (Inner.within levels) function m ts =
      arguments (Inner.within levels) function n ts := by
  induction m generalizing n ts with
  | zero => cases hm
  | succ m ih =>
    cases n with
    | zero => cases hn
    | succ n =>
      unfold arguments
      cases he : expression (Inner.within levels) ts with
      | error fault us => rfl
      | ok e us =>
        obtain ⟨used, rfl, -⟩ := enter_takes (fun l _ => sound l) .or ts e us he
        cases us with
        | nil => rfl
        | cons t us =>
          simp only [List.length_append, List.length_cons] at hm hn
          simp only [Outcome.andThen_ok]
          rw [@ih n us (by omega) (by omega)]

def afterArgument (inner : Option Inner) (function : String) (e : Expr) : Reader (List Expr)
  | [] => .error (.expected (.argumentEnd function)) []
  | t :: ts =>
    if t.kind = .comma then (arguments inner function (ts.length + 1) ts).map (e :: ·)
    else if t.kind = .rightParen then .ok [e] ts
    else .error (.expected (.argumentEnd function)) (t :: ts)

theorem arguments_eq_andThen (levels : Nat) (function : String) (ts : List Token) :
    arguments (Inner.within levels) function (ts.length + 1) ts =
      (expression (Inner.within levels) ts).andThen
        (afterArgument (Inner.within levels) function) := by
  rw [arguments]
  cases he : expression (Inner.within levels) ts with
  | error fault us => rfl
  | ok e us =>
    obtain ⟨used, rfl, -⟩ := enter_takes (fun l _ => sound l) .or ts e us he
    cases us with
    | nil => rfl
    | cons t us =>
      have hlt : us.length < (used ++ t :: us).length := by
        simp only [List.length_append, List.length_cons]
        omega
      simp only [Outcome.andThen_ok, afterArgument]
      rw [arguments_congr function hlt (Nat.lt_succ_self us.length)]

theorem afterArgument_keeps (levels : Nat) (function : String) (e : Expr) :
    Keeps (afterArgument (Inner.within levels) function e) := by
  intro ts
  cases ts with
  | nil => exact List.suffix_refl []
  | cons t ts =>
    rw [afterArgument]
    split
    · rw [Outcome.site_map]
      exact (arguments_keeps levels function ts).trans (List.suffix_cons t ts)
    · split
      · exact List.suffix_cons t ts
      · exact List.suffix_refl (t :: ts)

def raised (inner : Option Inner) (base : Expr) : Reader Expr
  | [] => .ok base []
  | t :: ts =>
    match Tier.power.operator? t with
    | none => .ok base (t :: ts)
    | some op =>
      (enter inner (fun i => i.read .power) ts).map fun exponent =>
        .binary op base exponent t.location.offset

theorem power_eq_andThen (inner : Option Inner) (ts : List Token) :
    power inner ts = (sign inner ts).andThen (raised inner) := rfl

theorem raised_keeps (levels : Nat) (base : Expr) : Keeps (raised (Inner.within levels) base) := by
  intro ts
  cases ts with
  | nil => exact List.suffix_refl []
  | cons t ts =>
    simp only [raised]
    split
    · exact List.suffix_refl (t :: ts)
    · rw [Outcome.site_map]
      exact (enter_keeps levels .power ts).trans (List.suffix_cons t ts)

/-- The word that negates is a name in front of a parenthesis and of a point. Both are taken with
it, so that the second token decides nothing that is not read. -/
theorem operand_rest_suffix (levels : Nat) {t : Token} {ts : List Token} (ht : t.kind = .identifier)
    (hn : ∃ n ∈ ts.head?, n.kind = .leftParen ∨ n.kind = .dot) :
    (operand (Inner.within levels) (t :: ts)).rest <:+ ts := by
  obtain ⟨n, us, rfl, hname⟩ : ∃ n us, ts = n :: us ∧ (n.kind = .leftParen ∨ n.kind = .dot) := by
    cases ts with
    | nil => simp at hn
    | cons n us => simpa using hn
  simp only [operand, ht, named]
  split
  · rw [call, Outcome.rest_map]
    exact ((Outcome.rest_suffix_site _).trans (argumentList_keeps levels t.text us)).trans
      (List.suffix_cons n us)
  next ho =>
    rw [if_pos (hname.resolve_left ho), path, Outcome.rest_map]
    exact (Outcome.rest_suffix_site _).trans (segments_keeps (n :: us))

theorem Outcome.rest_andThen_suffix {o : Outcome α} {f : α → Reader β} {ts : List Token}
    (h : o.rest <:+ ts) (hf : ∀ a, Keeps (f a)) : (o.andThen f).rest <:+ ts := by
  cases o with
  | ok a us => exact ((rest_suffix_site _).trans (hf a us)).trans h
  | error fault us => exact h

theorem comparison_rest_suffix (levels : Nat) {t : Token} {ts : List Token}
    (ht : t.kind = .identifier) (hn : ∃ n ∈ ts.head?, n.kind = .leftParen ∨ n.kind = .dot) :
    (comparison (Inner.within levels) (t :: ts)).rest <:+ ts := by
  have chain {tier next : Tier} (rule : Chains tier next)
      (h : (next.reader (Inner.within levels) (t :: ts)).rest <:+ ts) :
      (tier.reader (Inner.within levels) (t :: ts)).rest <:+ ts := by
    rw [rule.reader_eq]
    exact Outcome.rest_andThen_suffix h (extend_keeps levels rule)
  have sign : (sign (Inner.within levels) (t :: ts)).rest <:+ ts := by
    simp only [Grammar.sign, ht, if_false, reduceCtorEq]
    exact operand_rest_suffix levels ht hn
  have power : (power (Inner.within levels) (t :: ts)).rest <:+ ts := by
    rw [power_eq_andThen]
    exact Outcome.rest_andThen_suffix sign (raised_keeps levels)
  exact chain .comparison (chain .concat (chain .sum (chain .product power)))

theorem word_follows (t : Token) (ts : List Token) : FollowsAt (word t) (word t) ts := by
  have ok {e : Expr} (h : ∀ us, word t us = .ok e us) : FollowsAt (word t) (word t) ts :=
    .ok (h ts) fun us _ => h us
  have error (h : ∀ us, word t us = .error (.keyword t) us) : FollowsAt (word t) (word t) ts :=
    .error (by simp) (h ts) fun us _ => h us
  cases hk : t.keyword? with
  | none => exact ok fun us => by simp only [word, hk]; rfl
  | some k =>
    cases k with
    | true | false | null => exact ok fun us => by simp only [word, hk]; rfl
    | and | or | not => exact error fun us => by simp only [word, hk]

theorem path_follows (first : String) (position : Nat) (ts : List Token) :
    FollowsAt (path first position) (path first position) ts :=
  (segments_follows ts).map _

theorem closing_follows (opened : Location) (e : Expr) (ts : List Token) :
    FollowsAt (fun ts => (expect .rightParen (.closing opened) ts).map fun _ => e)
      (fun ts => (expect .rightParen (.closing opened) ts).map fun _ => e) ts :=
  (expect_follows _ _ ts).map _

section

variable {levels more : Nat} (hle : levels ≤ more)
  (below : ∀ l < levels, ∀ m, l ≤ m → Following l m)

include hle below

theorem enter_follows (tier : Tier) (ts : List Token) :
    FollowsAt (enter (Inner.within levels) fun i => i.read tier)
      (enter (Inner.within more) fun i => i.read tier) ts := by
  cases levels with
  | zero => exact .tooDeep rfl (enter_keeps more tier)
  | succ l =>
    cases more with
    | zero => cases hle
    | succ m => exact (below l (Nat.lt_succ_self l) m (Nat.le_of_succ_le_succ hle)).read tier ts

theorem arguments_follows (function : String) (ts : List Token) :
    FollowsAt (fun ts => arguments (Inner.within levels) function (ts.length + 1) ts)
      (fun ts => arguments (Inner.within more) function (ts.length + 1) ts) ts := by
  induction hn : ts.length using Nat.strongRecOn generalizing ts with
  | _ n ih =>
    refine .congr (.andThen (enter_follows hle below .or ts) (fun e us he => ?_) fun e =>
      afterArgument_keeps more function e) (arguments_eq_andThen levels function ts)
      fun us _ => arguments_eq_andThen more function us
    obtain ⟨used, rfl, -⟩ := enter_takes (fun l _ => sound l) .or ts e us he
    cases us with
    | nil => exact .error (by simp) rfl (of_head?_nil rfl)
    | cons t us =>
      have step (inner : Option Inner) (us : List Token) :
        afterArgument inner function e (t :: us) =
          if t.kind = .comma then (arguments inner function (us.length + 1) us).map (e :: ·)
          else if t.kind = .rightParen then .ok [e] us
          else .error (.expected (.argumentEnd function)) (t :: us) := rfl
      by_cases hc : t.kind = .comma
      · simp only [hc, if_true] at step
        have hlt : us.length < n := by
          simp only [List.length_append, List.length_cons] at hn
          omega
        exact .of_taken ((ih us.length hlt us rfl).map _) (step _) (step _)
      · simp only [hc, if_false] at step
        by_cases hr : t.kind = .rightParen
        · simp only [hr, if_true] at step
          exact .ok_of_taken (step _) (step _)
        · simp only [hr, if_false] at step
          exact .error_of_same (by simp) (step _) (step _)

theorem argumentList_follows (function : String) (ts : List Token) :
    FollowsAt (argumentList (Inner.within levels) function)
      (argumentList (Inner.within more) function) ts := by
  cases ts with
  | nil => exact .congr (arguments_follows hle below function []) rfl (of_head?_nil rfl)
  | cons t ts =>
    by_cases hr : t.kind = .rightParen
    · have step (inner : Option Inner) (us : List Token) :
          argumentList inner function (t :: us) = .ok [] us := by
        simp only [argumentList, hr, if_true]
      exact .ok_of_taken (step _) (step _)
    · have step (inner : Option Inner) (us : List Token) : argumentList inner function (t :: us) =
          arguments inner function ((t :: us).length + 1) (t :: us) := by
        simp only [argumentList, hr, if_false]
      exact .of_same (arguments_follows hle below function (t :: ts)) (step _) (step _)

theorem named_follows (name : Token) (ts : List Token) :
    FollowsAt (named (Inner.within levels) name) (named (Inner.within more) name) ts := by
  cases ts with
  | nil => exact .congr (word_follows name []) rfl (of_head?_nil rfl)
  | cons t ts =>
    by_cases ho : t.kind = .leftParen
    · have step (inner : Option Inner) (us : List Token) :
          named inner name (t :: us) = call inner name us := by
        simp only [named, ho, if_true]
      exact .of_taken ((argumentList_follows hle below name.text ts).map _) (step _) (step _)
    · by_cases hd : t.kind = .dot
      · have step (inner : Option Inner) (us : List Token) : named inner name (t :: us) =
            path name.text name.location.offset (t :: us) := by
          simp [named, hd]
        exact .of_same (path_follows _ _ (t :: ts)) (step _) (step _)
      · have step (inner : Option Inner) (us : List Token) :
            named inner name (t :: us) = word name (t :: us) := by
          simp only [named, ho, hd, if_false]
        exact .of_same (word_follows name (t :: ts)) (step _) (step _)

theorem operand_follows (ts : List Token) :
    FollowsAt (operand (Inner.within levels)) (operand (Inner.within more)) ts := by
  cases ts with
  | nil => exact .error (by simp) rfl (of_head?_nil rfl)
  | cons t ts =>
    -- What stands for itself, and what cannot stand here, is told by the token alone.
    have leaf {e : Expr} (h : ∀ (inner : Option Inner) us, operand inner (t :: us) = .ok e us) :
        FollowsAt (operand (Inner.within levels)) (operand (Inner.within more)) (t :: ts) :=
      .ok_of_taken (h _) (h _)
    have stuck (fault : Fault) (hf : fault ≠ .tooDeep)
        (h : ∀ (inner : Option Inner) us, operand inner (t :: us) = .error fault (t :: us)) :
        FollowsAt (operand (Inner.within levels)) (operand (Inner.within more)) (t :: ts) :=
      .error_of_same hf (h _) (h _)
    cases hk : t.kind with
    | number =>
      cases hd : Decimal.read t.text with
      | ok d => exact leaf fun inner us => by simp only [operand, hk, hd]; rfl
      | error e =>
        exact stuck (.invalidNumber t.text e) (by simp)
          fun inner us => by simp only [operand, hk, hd]
    | string => exact leaf fun inner us => by simp only [operand, hk]; rfl
    | boolean =>
      have invalid := stuck (.invalidBoolean t.text) (by simp)
      cases hw : Keyword.ofText? t.text with
      | none => exact invalid fun inner us => by simp only [operand, hk, hw]
      | some k =>
        cases k with
        | true | false => exact leaf fun inner us => by simp only [operand, hk, hw]; rfl
        | null | and | or | not => exact invalid fun inner us => by simp only [operand, hk, hw]
    | null => exact leaf fun inner us => by simp only [operand, hk]; rfl
    | identifier =>
      have step (inner : Option Inner) (us : List Token) :
          operand inner (t :: us) = named inner t us := by simp only [operand, hk]
      exact .of_taken (named_follows hle below t ts) (step _) (step _)
    | fieldMarker =>
      have step (inner : Option Inner) (us : List Token) : operand inner (t :: us) =
          (expect .identifier .globalName us).andThen fun name =>
            path ("$" ++ name.text) t.location.offset := by simp only [operand, hk]
      exact .of_taken (.andThen (expect_follows _ _ ts) (fun name us _ => path_follows _ _ us)
        fun name => segments_keeps.map _) (step _) (step _)
    | leftParen =>
      have step (inner : Option Inner) (us : List Token) : operand inner (t :: us) =
          (expression inner us).andThen fun e rest =>
            (expect .rightParen (.closing t.location) rest).map fun _ => e := by
        simp only [operand, hk]
      exact .of_taken (.andThen (enter_follows hle below .or ts)
        (fun e us _ => closing_follows t.location e us) fun e => closing_keeps t.location e)
        (step _) (step _)
    | _ => exact stuck (.expected .expression) (by simp) fun inner us => by simp only [operand, hk]

theorem sign_follows (ts : List Token) :
    FollowsAt (sign (Inner.within levels)) (sign (Inner.within more)) ts := by
  cases ts with
  | nil => exact .congr (operand_follows hle below []) rfl (of_head?_nil rfl)
  | cons t ts =>
    have enter := enter_follows hle below .sign ts
    by_cases hm : t.kind = .minus
    · have step (inner : Option Inner) (us : List Token) : sign inner (t :: us) =
          (Grammar.enter inner (fun i => i.read .sign) us).map fun e =>
            .unary .negate e t.location.offset := by simp only [sign, hm, if_true]
      exact .of_taken (enter.map _) (step _) (step _)
    · by_cases hp : t.kind = .plus
      · have step (inner : Option Inner) (us : List Token) :
            sign inner (t :: us) = Grammar.enter inner (fun i => i.read .sign) us := by
          simp [sign, hp]
        exact .of_taken enter (step _) (step _)
      · have step (inner : Option Inner) (us : List Token) :
            sign inner (t :: us) = operand inner (t :: us) := by
          simp only [sign, hm, hp, if_false]
        exact .of_same (operand_follows hle below (t :: ts)) (step _) (step _)

theorem power_follows (ts : List Token) :
    FollowsAt (power (Inner.within levels)) (power (Inner.within more)) ts := by
  refine .congr (.andThen (sign_follows hle below ts) (fun base us _ => ?_) (raised_keeps more))
    (power_eq_andThen _ ts) fun us _ => power_eq_andThen _ us
  cases us with
  | nil => exact .ok rfl (of_head?_nil rfl)
  | cons t us =>
    cases ho : Tier.power.operator? t with
    | none =>
      have step (inner : Option Inner) (us : List Token) :
          raised inner base (t :: us) = .ok base (t :: us) := by simp only [raised, ho]
      exact .ok_of_same (step _) (step _)
    | some op =>
      have step (inner : Option Inner) (us : List Token) : raised inner base (t :: us) =
          (enter inner (fun i => i.read .power) us).map fun exponent =>
            .binary op base exponent t.location.offset := by simp only [raised, ho]
      exact .of_taken ((enter_follows hle below .power us).map _) (step _) (step _)

theorem extend_follows {tier next : Tier} (left : Expr) (rule : Chains tier next)
    (ts : List Token) :
    FollowsAt (extend (Inner.within levels) tier left)
      (extend (Inner.within more) tier left) ts := by
  cases ts with
  | nil => exact .ok rfl (of_head?_nil rfl)
  | cons t ts =>
    cases ho : tier.operator? t with
    | none =>
      have step (inner : Option Inner) (us : List Token) :
          extend inner tier left (t :: us) = .ok left (t :: us) := by simp only [extend, ho]
      exact .ok_of_same (step _) (step _)
    | some op =>
      cases levels with
      | zero => exact .tooDeep (extend_within_zero left ts ho) (extend_keeps more rule left)
      | succ l =>
        cases more with
        | zero => cases hle
        | succ m =>
          have inside := below l (Nat.lt_succ_self l) m (Nat.le_of_succ_le_succ hle)
          refine .cons (.andThen (inside.read tier.tighter ts) (fun right us _ =>
            inside.extend _ rule us) fun right => extend_keeps m rule _)
            (extend_within_succ l left ts ho) fun us _ => extend_within_succ m left us ho

theorem chain_follows {tier next : Tier} (rule : Chains tier next) (ts : List Token)
    (h : FollowsAt (next.reader (Inner.within levels)) (next.reader (Inner.within more)) ts) :
    FollowsAt (tier.reader (Inner.within levels)) (tier.reader (Inner.within more)) ts := by
  rw [rule.reader_eq, rule.reader_eq]
  exact .andThen h (fun first us _ => extend_follows hle below first rule us)
    (extend_keeps more rule)

theorem negation_follows (ts : List Token)
    (h : FollowsAt (comparison (Inner.within levels)) (comparison (Inner.within more)) ts) :
    FollowsAt (negation (Inner.within levels)) (negation (Inner.within more)) ts := by
  cases ts with
  | nil => exact .congr h rfl (of_head?_nil rfl)
  | cons t ts =>
    have negated {inner : Option Inner} {us : List Token} (hn : t.negates us.head?) :
        negation inner (t :: us) =
          (enter inner (fun i => i.read .not) us).map fun e => .unary .not e t.location.offset := by
      simp only [negation, hn, if_true]
    have bare {inner : Option Inner} {us : List Token} (hn : ¬ t.negates us.head?) :
        negation inner (t :: us) = comparison inner (t :: us) := by
      simp only [negation, if_neg hn]
    by_cases hn : t.negates ts.head?
    · exact .cons ((enter_follows hle below .not ts).map _) (negated hn) fun us hu =>
        negated (hu ▸ hn)
    · by_cases hw : t.isWord "NOT"
      · -- The word is a name here, and is taken with what makes it one.
        have hname : ∃ n ∈ ts.head?, n.kind = .leftParen ∨ n.kind = .dot := by
          refine Classical.byContradiction fun hno => hn (Token.negates_iff.2 (.inr ⟨hw, ?_⟩))
          exact fun n hx => ⟨fun ho => hno ⟨n, hx, .inl ho⟩, fun hd => hno ⟨n, hx, .inr hd⟩⟩
        have hrest := comparison_rest_suffix levels ((Token.isWord_spelling .not).1 hw).1 hname
        exact .cons (h.tail hrest) (bare hn) fun us hu => bare (hu ▸ hn)
      · have hk : t.kind ≠ .not := fun hk => hn (Token.negates_iff.2 (.inl hk))
        have hno (us : List Token) : ¬ t.negates us.head? := fun hx =>
          (Token.negates_iff.1 hx).elim hk fun hx => hw hx.1
        exact .congr h (bare hn) (of_head?_cons fun us => bare (hno us))

end

theorem following (levels : Nat) : ∀ more, levels ≤ more → Following levels more := by
  induction levels using Nat.strongRecOn with
  | ind levels below =>
    intro more hle
    refine ⟨fun tier ts => ?_, fun left rule ts => extend_follows hle below left rule ts⟩
    induction tier using Tier.loosening_induction with
    | sign => exact sign_follows hle below ts
    | power => exact power_follows hle below ts
    | chain rule h => exact chain_follows hle below rule ts h
    | not h => exact negation_follows hle below ts h

/-- A whole formula is read the same way with more levels, and with other tokens behind the next
one. -/
theorem complete_follows {limit more : Nat} (h : limit ≤ more) (ts : List Token) :
    FollowsAt (complete (Inner.within limit)) (complete (Inner.within more)) ts := by
  refine .andThen (enter_follows h (fun l _ => following l) .or ts) (fun e us _ => ?_)
    fun e us => ?_
  · cases us with
    | nil => exact .ok rfl (of_head?_nil rfl)
    | cons t us => exact .error (by simp) rfl (of_head?_cons fun us => rfl)
  · cases us with
    | nil => exact List.suffix_refl []
    | cons t us => exact List.suffix_refl (t :: us)

end RuleFormula.Grammar
