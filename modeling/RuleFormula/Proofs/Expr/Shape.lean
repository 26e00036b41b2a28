import RuleFormula.Expr.Compare
import RuleFormula.Expr.Render

set_option autoImplicit false

namespace RuleFormula

theorem Literal.same_refl (v : Literal) : v.same v = true := by
  cases v <;> simp [same, Decimal.sameValue]

namespace Expr

mutual

/-- The tree with every place set to zero. -/
def unplaced : Expr → Expr
  | binary op left right _ => binary op left.unplaced right.unplaced 0
  | unary op operand _ => unary op operand.unplaced 0
  | call name args _ => call name (unplacedList args) 0
  | literal value _ => literal value 0
  | field path _ => field path 0

def unplacedList : List Expr → List Expr
  | [] => []
  | e :: es => e.unplaced :: unplacedList es

end

mutual

theorem sameShape_refl : (e : Expr) → e.sameShape e = true
  | binary _ l r _ => by simp [sameShape, sameShape_refl l, sameShape_refl r]
  | unary _ e _ => by simp [sameShape, sameShape_refl e]
  | call _ args _ => by simp [sameShape, sameShapes_refl args]
  | literal v _ => v.same_refl
  | field path _ => by simp [sameShape]

theorem sameShapes_refl : (es : List Expr) → sameShapes es es = true
  | [] => rfl
  | e :: es => by simp [sameShapes, sameShape_refl e, sameShapes_refl es]

end

mutual

theorem sameShape_unplaced : (a b : Expr) → a.unplaced.sameShape b.unplaced = a.sameShape b
  | binary _ l r _, b => by
    cases b <;> simp [unplaced, sameShape, sameShape_unplaced l, sameShape_unplaced r]
  | unary _ e _, b => by cases b <;> simp [unplaced, sameShape, sameShape_unplaced e]
  | call _ args _, b => by cases b <;> simp [unplaced, sameShape, sameShapes_unplaced args]
  | literal .., b => by cases b <;> simp [unplaced, sameShape]
  | field .., b => by cases b <;> simp [unplaced, sameShape]

theorem sameShapes_unplaced :
    (es fs : List Expr) → sameShapes (unplacedList es) (unplacedList fs) = sameShapes es fs
  | [], fs => by cases fs <;> simp [unplacedList, sameShapes]
  | e :: es, fs => by
    cases fs <;> simp [unplacedList, sameShapes, sameShape_unplaced e, sameShapes_unplaced es]

end

theorem sameShape_of_unplaced_eq {a b : Expr} (h : a.unplaced = b.unplaced) :
    a.sameShape b = true := by
  rw [← sameShape_unplaced, h, sameShape_refl]

mutual

theorem render_unplaced : (e : Expr) → e.unplaced.render = e.render
  | binary _ l r _ => by simp [unplaced, render, render_unplaced l, render_unplaced r]
  | unary .negate e _ | unary .not e _ => by simp [unplaced, render, render_unplaced e]
  | call _ args _ => by simp [unplaced, render, renderArgs_unplaced args]
  | literal .. | field .. => by simp [unplaced, render]

theorem renderArgs_unplaced : (es : List Expr) → renderArgs (unplacedList es) = renderArgs es
  | [] => rfl
  | [e] => by simp [unplacedList, renderArgs, render_unplaced e]
  | e :: f :: es => by
    have h := renderArgs_unplaced (f :: es)
    simp only [unplacedList] at h ⊢
    simp [renderArgs, render_unplaced e, h]

end

theorem render_of_unplaced_eq {a b : Expr} (h : a.unplaced = b.unplaced) : a.render = b.render := by
  rw [← render_unplaced, h, render_unplaced]

end Expr

end RuleFormula
