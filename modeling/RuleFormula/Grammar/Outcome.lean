import RuleFormula.Expr.Basic
import RuleFormula.Grammar.Error

/-! Reading off the front of a list of tokens. The end of input is the end of the list. -/
set_option autoImplicit false

namespace RuleFormula.Grammar

/-- Except for a keyword, a fault is about the first token that is left. -/
inductive Fault where
  | expected (what : Expectation)
  | trailing (found : Token)
  | tooDeep
  | keyword (word : Token)
  | invalidNumber (text : String) (fault : Decimal.ReadError)
  | invalidBoolean (text : String)
  deriving DecidableEq

inductive Outcome (α : Type) where
  | ok (value : α) (rest : List Token)
  | error (fault : Fault) (rest : List Token)

abbrev Reader (α : Type) := List Token → Outcome α

namespace Outcome

variable {α β : Type}

def rest : Outcome α → List Token
  | ok _ ts => ts
  | error _ ts => ts

@[inline] def map (f : α → β) : Outcome α → Outcome β
  | ok a ts => ok (f a) ts
  | error e ts => error e ts

@[inline] def andThen (o : Outcome α) (f : α → Reader β) : Outcome β :=
  match o with
  | ok a ts => f a ts
  | error e ts => error e ts

@[simp] theorem map_ok (f : α → β) (a : α) (ts : List Token) : (ok a ts).map f = ok (f a) ts := rfl

@[simp] theorem map_error (f : α → β) (e : Fault) (ts : List Token) :
    (error e ts).map f = error e ts := rfl

@[simp] theorem andThen_ok (a : α) (ts : List Token) (f : α → Reader β) :
    (ok a ts).andThen f = f a ts := rfl

@[simp] theorem andThen_error (e : Fault) (ts : List Token) (f : α → Reader β) :
    (error e ts).andThen f = error e ts := rfl

theorem map_eq_ok {o : Outcome α} {f : α → β} {b : β} {ts : List Token} :
    o.map f = ok b ts ↔ ∃ a, o = ok a ts ∧ f a = b := by
  cases o with
  | ok a us => simp only [map_ok, ok.injEq]; grind
  | error e us => simp

theorem map_eq_error {o : Outcome α} {f : α → β} {e : Fault} {ts : List Token} :
    o.map f = error e ts ↔ o = error e ts := by
  cases o <;> simp

theorem andThen_eq_ok {o : Outcome α} {f : α → Reader β} {b : β} {ts : List Token} :
    o.andThen f = ok b ts ↔ ∃ a us, o = ok a us ∧ f a us = ok b ts := by
  cases o with
  | ok a us => simp only [andThen_ok, ok.injEq]; grind
  | error e us => simp

theorem andThen_eq_error {o : Outcome α} {f : α → Reader β} {e : Fault} {ts : List Token} :
    o.andThen f = error e ts ↔ o = error e ts ∨ ∃ a us, o = ok a us ∧ f a us = error e ts := by
  cases o with
  | ok a us => simp only [andThen_ok, ok.injEq]; grind
  | error e us => simp

end Outcome

def expect (kind : Token.Kind) (what : Expectation) : Reader Token
  | [] => .error (.expected what) []
  | t :: ts => if t.kind = kind then .ok t ts else .error (.expected what) (t :: ts)

end RuleFormula.Grammar
