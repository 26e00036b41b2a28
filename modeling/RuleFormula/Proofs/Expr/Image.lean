import RuleFormula.Proofs.Decimal.Value
import RuleFormula.Proofs.Expr.Canonical

set_option autoImplicit false

namespace RuleFormula

theorem Text.isNamePart_apart : isNamePart '.' = false ∧ isNamePart '$' = false := by decide +kernel

theorem Text.IsName.not_mem {name : String} (h : IsName name) :
    '.' ∉ name.toList ∧ '$' ∉ name.toList := by
  obtain ⟨c, -, -, hall⟩ := isName_iff.1 h
  obtain ⟨hpoint, hmark⟩ := isNamePart_apart
  constructor
  · intro hm
    simp [hall _ hm] at hpoint
  · intro hm
    simp [hall _ hm] at hmark

theorem Literal.wellFormed_iff_of_same {v w : Literal} (h : v.same w = true) :
    v.WellFormed ↔ w.WellFormed := by
  cases v with
  | number a =>
    cases w with
    | number b => exact Decimal.coefficient_nonneg_iff h
    | string | boolean | null => cases h
  | string | boolean | null =>
    cases w with
    | number => cases h
    | string | boolean | null => exact Iff.rfl

namespace Expr

mutual

theorem wellFormed_iff_of_sameShape :
    (a b : Expr) → a.sameShape b = true → (a.WellFormed ↔ b.WellFormed)
  | binary _ l r _, b, h => by
    cases b <;> simp only [sameShape, Bool.and_eq_true, Bool.false_eq_true] at h
    simp only [WellFormed, wellFormed_iff_of_sameShape l _ h.1.2,
      wellFormed_iff_of_sameShape r _ h.2]
  | unary _ e _, b, h => by
    cases b <;> simp only [sameShape, Bool.and_eq_true, Bool.false_eq_true] at h
    simp only [WellFormed, wellFormed_iff_of_sameShape e _ h.2]
  | call _ args _, b, h => by
    cases b <;> simp only [sameShape, Bool.and_eq_true, Bool.false_eq_true, beq_iff_eq] at h
    simp only [WellFormed, h.1, wellFormedList_iff_of_sameShapes args _ h.2]
  | literal v _, b, h => by
    cases b <;> simp only [sameShape, Bool.false_eq_true] at h
    exact Literal.wellFormed_iff_of_same h
  | field path _, b, h => by
    cases b <;> simp only [sameShape, Bool.false_eq_true, beq_iff_eq] at h
    simp only [WellFormed, h]

theorem wellFormedList_iff_of_sameShapes : (es fs : List Expr) → sameShapes es fs = true →
    (WellFormedList es ↔ WellFormedList fs)
  | [], [], _ => Iff.rfl
  | e :: es, f :: fs, h => by
    simp only [sameShapes, Bool.and_eq_true] at h
    simp only [WellFormedList, wellFormed_iff_of_sameShape e f h.1,
      wellFormedList_iff_of_sameShapes es fs h.2]

end

/-- What a node tells by itself about being well-formed. -/
def Legible : Expr → Prop
  | call name _ _ => Text.IsName name
  | literal value _ => value.WellFormed
  | field path _ => WellFormedPath path
  | binary .. | unary .. => True

mutual

theorem wellFormed_iff_nodes : (e : Expr) → (e.WellFormed ↔ ∀ n ∈ e.nodes, n.Legible)
  | binary op l r p => by
    simp only [WellFormed, nodes, List.forall_mem_cons, List.forall_mem_append, Legible, true_and,
      wellFormed_iff_nodes l, wellFormed_iff_nodes r]
  | unary op e p => by
    simp only [WellFormed, nodes, List.forall_mem_cons, Legible, true_and, wellFormed_iff_nodes e]
  | call name args p => by
    simp only [WellFormed, nodes, List.forall_mem_cons, Legible, wellFormedList_iff_nodes args]
  | literal .. | field .. => by simp [WellFormed, nodes, Legible]

theorem wellFormedList_iff_nodes : (es : List Expr) →
    (WellFormedList es ↔ ∀ n ∈ nodesList es, n.Legible)
  | [] => by simp [WellFormedList, nodesList]
  | e :: es => by
    simp only [WellFormedList, nodesList, List.forall_mem_append, wellFormed_iff_nodes e,
      wellFormedList_iff_nodes es]

end

theorem wellFormed_iff_parts (e : Expr) : e.WellFormed ↔
    (∀ path p, field path p ∈ e.nodes → WellFormedPath path) ∧
      (∀ name args p, call name args p ∈ e.nodes → Text.IsName name) ∧
      ∀ d p, literal (.number d) p ∈ e.nodes → 0 ≤ d.coefficient := by
  rw [wellFormed_iff_nodes]
  constructor
  · intro h
    exact ⟨fun _ _ hn => h _ hn, fun _ _ _ hn => h _ hn, fun _ _ hn => h _ hn⟩
  · intro h n hn
    obtain ⟨hpath, hname, hnumber⟩ := h
    cases n with
    | binary | unary => trivial
    | call name args p => exact hname name args p hn
    | literal v p =>
      cases v with
      | number d => exact hnumber d p hn
      | string | boolean | null => trivial
    | field path p => exact hpath path p hn

end Expr

theorem WellFormedPath.not_mem_tail {path : List String} (h : WellFormedPath path) :
    ∀ name ∈ path.tail, '.' ∉ name.toList ∧ '$' ∉ name.toList := by
  cases path with
  | nil => simp
  | cons first names => exact fun name hn => (h.2 name hn).not_mem

/-- The well-formed trees are those that are read from text, up to positions; and as trees of one
shape have equal numbers, also up to the zeros at the end of these. Seen from its nodes, a tree is
well-formed if its paths are paths of names, the called names are names, and no number is
negative. -/
theorem wellFormed_iff_exists_parseFormula (e : Expr) :
    (e.WellFormed ↔ ∃ limit s e', parseFormula limit s = .ok e' ∧ e'.unplaced = e.unplaced) ∧
    (e.WellFormed ↔ ∃ limit s e', parseFormula limit s = .ok e' ∧ e.sameShape e' = true) ∧
    (e.WellFormed ↔
      (∀ path p, .field path p ∈ e.nodes → WellFormedPath path ∧
        ∀ name ∈ path.tail, '.' ∉ name.toList ∧ '$' ∉ name.toList) ∧
      (∀ name args p, .call name args p ∈ e.nodes → Text.IsName name) ∧
      ∀ d p, .literal (.number d) p ∈ e.nodes →
        0 ≤ d.coefficient ∧ d.coefficient.natAbs < 2 ^ 96 ∧ d.scale ≤ 28) := by
  have written (h : e.WellFormed) :
      ∃ limit s e', parseFormula limit s = .ok e' ∧ e'.unplaced = e.unplaced := by
    obtain ⟨e', hp, he'⟩ := (parseFormula_render_levels h _).1 (Nat.le_refl _)
    exact ⟨_, _, e', hp, he'⟩
  have read {limit : Nat} {s : String} {e' : Expr} (hp : parseFormula limit s = .ok e')
      (hs : e.sameShape e' = true) : e.WellFormed :=
    (Expr.wellFormed_iff_of_sameShape e e' hs).2 (Expr.wellFormed_of_parseFormula hp)
  refine ⟨⟨written, fun h => ?_⟩, ⟨fun h => ?_, fun h => ?_⟩, ?_⟩
  · obtain ⟨limit, s, e', hp, he'⟩ := h
    exact read hp (Expr.sameShape_of_unplaced_eq he'.symm)
  · obtain ⟨limit, s, e', hp, he'⟩ := written h
    exact ⟨limit, s, e', hp, Expr.sameShape_of_unplaced_eq he'.symm⟩
  · obtain ⟨limit, s, e', hp, hs⟩ := h
    exact read hp hs
  · rw [Expr.wellFormed_iff_parts]
    constructor
    · intro h
      obtain ⟨hpath, hname, hnumber⟩ := h
      exact ⟨fun path p hn => ⟨hpath path p hn, (hpath path p hn).not_mem_tail⟩, hname,
        fun d p hn => ⟨hnumber d p hn, d.coefficient_lt, d.scale_le⟩⟩
    · intro h
      obtain ⟨hpath, hname, hnumber⟩ := h
      exact ⟨fun path p hn => (hpath path p hn).1, hname, fun d p hn => (hnumber d p hn).1⟩

end RuleFormula
