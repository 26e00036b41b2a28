import RuleFormula.Expr.Basic
import RuleFormula.Grammar.Tier
import RuleFormula.Proofs.Token.Keyword
import RuleFormula.Decimal.Reader
import RuleFormula.Token.Quoted

/-! The grammar of formulas as derivations, one constructor for each rule, and the levels that
reading a derivation takes. Nothing here refers to the readers or to their tables of operators. -/
set_option autoImplicit false

namespace RuleFormula.Grammar

inductive Chains : Tier → Tier → Prop
  | or : Chains .or .and
  | and : Chains .and .not
  | comparison : Chains .comparison .concat
  | concat : Chains .concat .sum
  | sum : Chains .sum .product
  | product : Chains .product .power

/-- Induction from the tightest tier to the loosest one. -/
@[elab_as_elim]
theorem Tier.loosening_induction {motive : Tier → Prop}
    (sign : motive .sign) (power : motive .power)
    (chain : ∀ {tier next : Tier}, Chains tier next → motive next → motive tier)
    (not : motive .comparison → motive .not) (tier : Tier) : motive tier := by
  have product := chain .product power
  have sum := chain .sum product
  have concat := chain .concat sum
  have comparison := chain .comparison concat
  have negation := not comparison
  have conjunction := chain .and negation
  cases tier with
  | or => exact chain .or conjunction
  | and => exact conjunction
  | not => exact negation
  | comparison => exact comparison
  | concat => exact concat
  | sum => exact sum
  | product => exact product
  | power => exact power
  | sign => exact sign

inductive Joins (t : Token) : Tier → BinaryOp → Prop
  | or (h : t.kind = .or ∨ t.isWord "OR") : Joins t .or .or
  | and (h : t.kind = .and ∨ t.isWord "AND") : Joins t .and .and
  | equal (h : t.kind = .equals) : Joins t .comparison .equal
  | notEqual (h : t.kind = .notEquals) : Joins t .comparison .notEqual
  | lessThan (h : t.kind = .less) : Joins t .comparison .lessThan
  | lessEqual (h : t.kind = .lessEqual) : Joins t .comparison .lessEqual
  | greaterThan (h : t.kind = .greater) : Joins t .comparison .greaterThan
  | greaterEqual (h : t.kind = .greaterEqual) : Joins t .comparison .greaterEqual
  | concat (h : t.kind = .ampersand) : Joins t .concat .concat
  | add (h : t.kind = .plus) : Joins t .sum .add
  | subtract (h : t.kind = .minus) : Joins t .sum .subtract
  | multiply (h : t.kind = .star) : Joins t .product .multiply
  | divide (h : t.kind = .slash) : Joins t .product .divide
  | modulo (h : t.kind = .percent) : Joins t .product .modulo

/-- The names of a field path behind the first one. -/
inductive Path : List Token → List String → Prop
  | nil : Path [] []
  | cons {point name : Token} {ts : List Token} {names : List String} (hp : point.kind = .dot)
      (hn : name.kind = .identifier) (path : Path ts names) :
      Path (point :: name :: ts) (name.text :: names)

mutual

/-- The ways to read tokens as a tree, starting on a tier. -/
inductive Phrase : Tier → List Token → Expr → Type
  | chain {tier next : Tier} {ts us : List Token} {first e : Expr} (rule : Chains tier next)
      (head : Phrase next ts first) (tail : Chain tier next us first e) : Phrase tier (ts ++ us) e
  | bang {t : Token} {ts : List Token} {e : Expr} (h : t.kind = .not) (p : Phrase .not ts e) :
      Phrase .not (t :: ts) (.unary .not e t.location.offset)
  | word {t : Token} {ts : List Token} {e : Expr} (h : t.isWord "NOT")
      (hn : ∀ n ∈ ts.head?, n.kind ≠ .leftParen ∧ n.kind ≠ .dot) (p : Phrase .not ts e) :
      Phrase .not (t :: ts) (.unary .not e t.location.offset)
  | comparison {ts : List Token} {e : Expr} (p : Phrase .comparison ts e) : Phrase .not ts e
  | power {t : Token} {ts us : List Token} {base exponent : Expr} (b : Phrase .sign ts base)
      (h : t.kind = .caret) (x : Phrase .power us exponent) :
      Phrase .power (ts ++ t :: us) (.binary .power base exponent t.location.offset)
  | sign {ts : List Token} {e : Expr} (p : Phrase .sign ts e) : Phrase .power ts e
  | minus {t : Token} {ts : List Token} {e : Expr} (h : t.kind = .minus) (p : Phrase .sign ts e) :
      Phrase .sign (t :: ts) (.unary .negate e t.location.offset)
  | plus {t : Token} {ts : List Token} {e : Expr} (h : t.kind = .plus) (p : Phrase .sign ts e) :
      Phrase .sign (t :: ts) e
  | operand {ts : List Token} {e : Expr} (p : Operand ts e) : Phrase .sign ts e

/-- What follows the first operand of a chain. The tree so far is the left side of the next
operator. -/
inductive Chain : Tier → Tier → List Token → Expr → Expr → Type
  | done {tier next : Tier} {e : Expr} : Chain tier next [] e e
  | more {tier next : Tier} {op : BinaryOp} {t : Token} {ts us : List Token} {left right e : Expr}
      (h : Joins t tier op) (p : Phrase next ts right)
      (tail : Chain tier next us (.binary op left right t.location.offset) e) :
      Chain tier next (t :: ts ++ us) left e

inductive Operand : List Token → Expr → Type
  | number {t : Token} {d : Decimal} (h : t.kind = .number) (hd : Decimal.read t.text = .ok d) :
      Operand [t] (.literal (.number d) t.location.offset)
  | string {t : Token} (h : t.kind = .string) :
      Operand [t] (.literal (.string (Quoted.decode t.text)) t.location.offset)
  | boolean {t : Token} (b : Bool) (h : t.kind = .boolean)
      (hw : Text.sameWord t.text (if b then "TRUE" else "FALSE")) :
      Operand [t] (.literal (.boolean b) t.location.offset)
  | booleanWord {t : Token} (b : Bool) (hw : t.isWord (if b then "TRUE" else "FALSE")) :
      Operand [t] (.literal (.boolean b) t.location.offset)
  | null {t : Token} (h : t.kind = .null ∨ t.isWord "NULL") :
      Operand [t] (.literal .null t.location.offset)
  | path {t : Token} {ts : List Token} {names : List String} (h : t.kind = .identifier)
      (path : Path ts names) (hr : names = [] → ¬ IsReserved t.text) :
      Operand (t :: ts) (.field (t.text :: names) t.location.offset)
  | global {t name : Token} {ts : List Token} {names : List String} (h : t.kind = .fieldMarker)
      (hn : name.kind = .identifier) (path : Path ts names) :
      Operand (t :: name :: ts) (.field (("$" ++ name.text) :: names) t.location.offset)
  | emptyCall {name opening close : Token} (h : name.kind = .identifier)
      (ho : opening.kind = .leftParen) (hc : close.kind = .rightParen) :
      Operand [name, opening, close] (.call name.text [] name.location.offset)
  | call {name opening : Token} {ts : List Token} {es : List Expr} (h : name.kind = .identifier)
      (ho : opening.kind = .leftParen) (args : Arguments ts es) :
      Operand (name :: opening :: ts) (.call name.text es name.location.offset)
  | group {opening close : Token} {ts : List Token} {e : Expr} (ho : opening.kind = .leftParen)
      (p : Phrase .or ts e) (hc : close.kind = .rightParen) : Operand (opening :: ts ++ [close]) e

inductive Arguments : List Token → List Expr → Type
  | last {close : Token} {ts : List Token} {e : Expr} (p : Phrase .or ts e)
      (h : close.kind = .rightParen) : Arguments (ts ++ [close]) [e]
  | more {comma : Token} {ts us : List Token} {e : Expr} {es : List Expr} (p : Phrase .or ts e)
      (h : comma.kind = .comma) (rest : Arguments us es) : Arguments (ts ++ comma :: us) (e :: es)

end

def Derives (ts : List Token) (e : Expr) : Prop := Nonempty (Phrase .or ts e)

mutual

/-- A leading operator, an exponent, a parenthesis and an argument take one level for what is
inside. -/
def Phrase.levels {tier : Tier} {ts : List Token} {e : Expr} : Phrase tier ts e → Nat
  | .chain _ head tail => max head.levels tail.levels
  | .bang _ p | .word _ _ p | .minus _ p | .plus _ p => p.levels + 1
  | .comparison p | .sign p => p.levels
  | .power b _ x => max b.levels (x.levels + 1)
  | .operand p => p.levels

/-- Every operator takes a level for all that follows in its chain. -/
def Chain.levels {tier next : Tier} {ts : List Token} {left e : Expr} :
    Chain tier next ts left e → Nat
  | .done => 0
  | .more _ p tail => max p.levels tail.levels + 1

def Operand.levels {ts : List Token} {e : Expr} : Operand ts e → Nat
  | .number .. | .string .. | .boolean .. | .booleanWord .. | .null .. | .path .. | .global ..
  | .emptyCall .. => 0
  | .call _ _ args => args.levels
  | .group _ p _ => p.levels + 1

def Arguments.levels {ts : List Token} {es : List Expr} : Arguments ts es → Nat
  | .last p _ => p.levels + 1
  | .more p _ rest => max (p.levels + 1) rest.levels

end

mutual

theorem Phrase.levels_le {tier : Tier} {ts : List Token} {e : Expr} :
    (p : Phrase tier ts e) → p.levels ≤ ts.length
  | .chain _ head tail => by
    have hh := head.levels_le
    have ht := tail.levels_le
    simp only [Phrase.levels, List.length_append]; omega
  | .bang _ p | .word _ _ p | .minus _ p | .plus _ p => by
    have h := p.levels_le
    simp only [Phrase.levels, List.length_cons]; omega
  | .comparison p | .sign p => by
    have h := p.levels_le
    simpa only [Phrase.levels] using h
  | .power b _ x => by
    have hb := b.levels_le
    have hx := x.levels_le
    simp only [Phrase.levels, List.length_append, List.length_cons]; omega
  | .operand p => by
    have h := p.levels_le
    simpa only [Phrase.levels] using h

theorem Chain.levels_le {tier next : Tier} {ts : List Token} {left e : Expr} :
    (c : Chain tier next ts left e) → c.levels ≤ ts.length
  | .done => Nat.zero_le _
  | .more _ p tail => by
    have hp := p.levels_le
    have ht := tail.levels_le
    simp only [Chain.levels, List.length_append, List.length_cons]; omega

theorem Operand.levels_le {ts : List Token} {e : Expr} :
    (p : Operand ts e) → p.levels ≤ ts.length
  | .number .. | .string .. | .boolean .. | .booleanWord .. | .null .. | .path .. | .global ..
  | .emptyCall .. => Nat.zero_le _
  | .call _ _ args => by
    have h := args.levels_le
    simp only [Operand.levels, List.length_cons]; omega
  | .group _ p _ => by
    have h := p.levels_le
    simp only [Operand.levels, List.length_append, List.length_cons]; omega

theorem Arguments.levels_le {ts : List Token} {es : List Expr} :
    (a : Arguments ts es) → a.levels ≤ ts.length
  | .last p _ => by
    have h := p.levels_le
    simp only [Arguments.levels, List.length_append, List.length_cons]; omega
  | .more p _ rest => by
    have h := p.levels_le
    have hr := rest.levels_le
    simp only [Arguments.levels, List.length_append, List.length_cons]; omega

end

def Tier.rank : Tier → Nat
  | or => 0
  | and => 1
  | not => 2
  | comparison => 3
  | concat => 4
  | sum => 5
  | product => 6
  | power => 7
  | sign => 8

theorem Chains.rank_lt {tier next : Tier} (rule : Chains tier next) : tier.rank < next.rank := by
  cases rule <;> decide

theorem Tier.eq_of_rank_eq {a b : Tier} (h : a.rank = b.rank) : a = b := by
  revert h
  cases a <;> cases b <;> decide

theorem Tier.rank_tighter {a b : Tier} (h : a.rank < b.rank) : a.tighter.rank = a.rank + 1 := by
  revert h
  cases a <;> cases b <;> decide

theorem Phrase.exists_chain {tier next : Tier} {ts : List Token} {e : Expr}
    (rule : Chains tier next) (p : Phrase next ts e) :
    ∃ q : Phrase tier ts e, q.levels = p.levels := by
  have h : ∃ q : Phrase tier (ts ++ []) e, q.levels = p.levels :=
    ⟨.chain rule p .done, by simp [Phrase.levels, Chain.levels]⟩
  rwa [List.append_nil] at h

theorem Phrase.exists_of_tighter {tier : Tier} {ts : List Token} {e : Expr}
    (p : Phrase tier.tighter ts e) : ∃ q : Phrase tier ts e, q.levels = p.levels := by
  cases tier with
  | or => exact exists_chain .or p
  | and => exact exists_chain .and p
  | not => exact ⟨.comparison p, rfl⟩
  | comparison => exact exists_chain .comparison p
  | concat => exact exists_chain .concat p
  | sum => exact exists_chain .sum p
  | product => exact exists_chain .product p
  | power => exact ⟨.sign p, rfl⟩
  | sign => exact ⟨p, rfl⟩

theorem Phrase.exists_of_rank_le {tighter : Tier} {ts : List Token} {e : Expr}
    (p : Phrase tighter ts e) (tier : Tier) (h : tier.rank ≤ tighter.rank) :
    ∃ q : Phrase tier ts e, q.levels = p.levels := by
  obtain ⟨n, hn⟩ : ∃ n, tighter.rank = tier.rank + n := ⟨_, (Nat.add_sub_of_le h).symm⟩
  induction n generalizing tier with
  | zero =>
    obtain rfl := Tier.eq_of_rank_eq hn
    exact ⟨p, rfl⟩
  | succ n ih =>
    have hr := Tier.rank_tighter (a := tier) (b := tighter) (by omega)
    obtain ⟨q, hq⟩ := ih tier.tighter (by omega) (by omega)
    obtain ⟨r, hr⟩ := q.exists_of_tighter
    exact ⟨r, hr.trans hq⟩

theorem Operand.exists_phrase {ts : List Token} {e : Expr} (p : Operand ts e) (tier : Tier) :
    ∃ q : Phrase tier ts e, q.levels = p.levels := by
  obtain ⟨q, hq⟩ := (Phrase.operand p).exists_of_rank_le tier (by cases tier <;> decide)
  exact ⟨q, by rw [hq, Phrase.levels]⟩

end RuleFormula.Grammar
