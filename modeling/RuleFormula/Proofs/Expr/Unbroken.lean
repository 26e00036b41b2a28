import RuleFormula.Proofs.Expr.Spelling

set_option autoImplicit false

namespace RuleFormula

namespace Text

/-- A text on one line. -/
def Unbroken (cs : List Char) : Prop := ∀ c ∈ cs, c ≠ '\n' ∧ c ≠ '\r'

@[simp] theorem unbroken_nil : Unbroken [] := by simp [Unbroken]

@[simp] theorem unbroken_cons {c : Char} {cs : List Char} :
    Unbroken (c :: cs) ↔ (c ≠ '\n' ∧ c ≠ '\r') ∧ Unbroken cs := List.forall_mem_cons

@[simp] theorem unbroken_append {cs ds : List Char} :
    Unbroken (cs ++ ds) ↔ Unbroken cs ∧ Unbroken ds := List.forall_mem_append

theorem Unbroken.not_mem {cs : List Char} (h : Unbroken cs) : '\n' ∉ cs ∧ '\r' ∉ cs :=
  ⟨fun hm => (h _ hm).1 rfl, fun hm => (h _ hm).2 rfl⟩

theorem unbroken_of_isBlank {cs : List Char} (h : ∀ c ∈ cs, isBlank c = false) : Unbroken cs := by
  intro c hc
  have hb := h c hc
  constructor <;> rintro rfl <;> exact absurd hb (by decide)

theorem unbroken_of_isDigit {cs : List Char} (h : ∀ c ∈ cs, c.isDigit = true) : Unbroken cs :=
  unbroken_of_isBlank fun c hc => isBlank_of_isNamePart (isNamePart_of_isDigit (h c hc))

theorem IsName.unbroken {name : String} (h : IsName name) : Unbroken name.toList := by
  obtain ⟨-, -, -, hall⟩ := isName_iff.1 h
  exact unbroken_of_isBlank fun c hc => isBlank_of_isNamePart (hall c hc)

theorem unbroken_intercalate {separator : String} {items : List String}
    (hs : Unbroken separator.toList) (h : ∀ item ∈ items, Unbroken item.toList) :
    Unbroken (separator.intercalate items).toList := by
  induction items with
  | nil => exact unbroken_nil
  | cons item items ih =>
    rw [List.forall_mem_cons] at h
    cases items with
    | nil => simpa using h.1
    | cons next items =>
      rw [String.intercalate_cons_cons, String.toList_append, String.toList_append]
      exact unbroken_append.2 ⟨unbroken_append.2 ⟨h.1, hs⟩, ih h.2⟩

end Text

open Text

theorem Quoted.unbroken_encodeChar (c : Char) : Unbroken (encodeChar c) := by
  unfold encodeChar
  split <;> simp_all

theorem Quoted.unbroken_encode (s : String) : Unbroken (encode s).toList := by
  have hbody : Unbroken (s.toList.flatMap encodeChar) := fun c hc => by
    obtain ⟨d, -, hd⟩ := List.mem_flatMap.1 hc
    exact unbroken_encodeChar d c hd
  simp [encode, hbody]

theorem Decimal.unbroken_toText {d : Decimal} (h : 0 ≤ d.coefficient) :
    Unbroken d.toText.toList := by
  have hwhole (n : Nat) : Unbroken (Nat.toDigits 10 n) :=
    unbroken_of_isDigit fun c hc => Nat.isDigit_of_mem_toDigits (by decide) (by decide) hc
  have hplaces : Unbroken (lowDigits d.scale d.coefficient.natAbs) :=
    unbroken_of_isDigit fun c hc => isDigit_of_mem_lowDigits hc
  rw [toList_toText h, unbroken_append]
  refine ⟨hwhole _, ?_⟩
  split
  · exact unbroken_nil
  · exact unbroken_cons.2 ⟨by decide, hplaces⟩

theorem Literal.WellFormed.unbroken_render {v : Literal} (h : v.WellFormed) :
    Unbroken v.render.toList := by
  cases v with
  | number d => exact Decimal.unbroken_toText h
  | string s => exact Quoted.unbroken_encode s
  | boolean b => cases b <;> simp [Literal.render]
  | null => simp [Literal.render]

theorem BinaryOp.unbroken_symbol (op : BinaryOp) : Unbroken op.symbol.toList := by
  cases op <;> simp [BinaryOp.symbol]

theorem WellFormedPath.unbroken_renderPath {path : List String} (h : WellFormedPath path) :
    Unbroken (Expr.renderPath path).toList := by
  refine unbroken_intercalate (by simp) ?_
  cases path with
  | nil => simp
  | cons first names =>
    obtain ⟨hfirst, hnames⟩ := h
    refine List.forall_mem_cons.2 ⟨?_, fun name hn => (hnames name hn).unbroken⟩
    rcases hfirst with ⟨hfirst, -⟩ | ⟨name, hname, rfl⟩
    · exact hfirst.unbroken
    · simpa using hname.unbroken

namespace Expr

mutual

theorem WellFormed.unbroken_render : {e : Expr} → e.WellFormed → Unbroken e.render.toList
  | binary op l r _, h => by
    have hop := op.unbroken_symbol
    have hl := WellFormed.unbroken_render h.1
    have hr := WellFormed.unbroken_render h.2
    simp [render, hop, hl, hr]
  | unary op e _, h => by
    have he : Unbroken e.render.toList := WellFormed.unbroken_render h
    cases op <;> simp [render, he]
  | call name args _, h => by
    have hname := h.1.unbroken
    have hargs := WellFormedList.unbroken_renderArgs h.2
    simp [render, hname, hargs]
  | literal v _, h => Literal.WellFormed.unbroken_render h
  | field path _, h => WellFormedPath.unbroken_renderPath h

theorem WellFormedList.unbroken_renderArgs :
    {es : List Expr} → WellFormedList es → Unbroken (renderArgs es).toList
  | [], _ => unbroken_nil
  | [_], h => WellFormed.unbroken_render h.1
  | e :: f :: es, h => by
    have he := WellFormed.unbroken_render h.1
    have hes := WellFormedList.unbroken_renderArgs h.2
    simp [renderArgs, he, hes]

end

end Expr

end RuleFormula
