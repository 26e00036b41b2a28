import Mathlib.Data.List.Forall2
import RuleFormula.Proofs.Decimal.Value
import RuleFormula.Proofs.Expr.Shape

set_option autoImplicit false

namespace RuleFormula

theorem Literal.same_comm (v w : Literal) : v.same w = w.same v := by
  cases v <;> cases w <;> simp [same, Decimal.sameValue_comm, BEq.comm]

theorem Literal.same_trans {u v w : Literal} (huv : u.same v = true) (hvw : v.same w = true) :
    u.same w = true := by
  cases u <;> cases v <;> cases w <;>
    simp only [same, Decimal.sameValue_iff, beq_iff_eq, Bool.false_eq_true] at huv hvw ⊢
  · exact huv.trans hvw
  · exact huv.trans hvw
  · exact huv.trans hvw

namespace Expr

mutual

theorem same_unplaced : (a b : Expr) → a.unplaced.same b.unplaced = a.sameShape b
  | binary _ l r _, b => by
    cases b <;> simp [unplaced, same, sameShape, same_unplaced l, same_unplaced r]
  | unary _ e _, b => by cases b <;> simp [unplaced, same, sameShape, same_unplaced e]
  | call _ args _, b => by cases b <;> simp [unplaced, same, sameShape, sameList_unplaced args]
  | literal .., b => by cases b <;> simp [unplaced, same, sameShape]
  | field .., b => by cases b <;> simp [unplaced, same, sameShape]

theorem sameList_unplaced :
    (es fs : List Expr) → sameList (unplacedList es) (unplacedList fs) = sameShapes es fs
  | [], fs => by cases fs <;> simp [unplacedList, sameList, sameShapes]
  | e :: es, fs => by
    cases fs <;>
      simp [unplacedList, sameList, sameShapes, same_unplaced e, sameList_unplaced es]

end

mutual

theorem sameShape_comm : (a b : Expr) → a.sameShape b = b.sameShape a
  | binary _ l r _, b => by
    cases b <;> simp [sameShape, sameShape_comm l, sameShape_comm r, BEq.comm]
  | unary _ e _, b => by cases b <;> simp [sameShape, sameShape_comm e, BEq.comm]
  | call _ args _, b => by cases b <;> simp [sameShape, sameShapes_comm args, BEq.comm]
  | literal v _, b => by cases b <;> simp [sameShape, v.same_comm]
  | field .., b => by cases b <;> simp [sameShape, BEq.comm]

theorem sameShapes_comm : (es fs : List Expr) → sameShapes es fs = sameShapes fs es
  | [], fs => by cases fs <;> simp [sameShapes]
  | e :: es, fs => by cases fs <;> simp [sameShapes, sameShape_comm e, sameShapes_comm es]

end

mutual

theorem sameShape_trans : (a b c : Expr) → a.sameShape b = true → b.sameShape c = true →
    a.sameShape c = true
  | binary _ l r _, b, c, hab, hbc => by
    cases b <;> simp only [sameShape, Bool.and_eq_true, Bool.false_eq_true, beq_iff_eq] at hab
    cases c <;> simp only [sameShape, Bool.and_eq_true, Bool.false_eq_true, beq_iff_eq] at hbc ⊢
    exact ⟨⟨hab.1.1.trans hbc.1.1, sameShape_trans l _ _ hab.1.2 hbc.1.2⟩,
      sameShape_trans r _ _ hab.2 hbc.2⟩
  | unary _ e _, b, c, hab, hbc => by
    cases b <;> simp only [sameShape, Bool.and_eq_true, Bool.false_eq_true, beq_iff_eq] at hab
    cases c <;> simp only [sameShape, Bool.and_eq_true, Bool.false_eq_true, beq_iff_eq] at hbc ⊢
    exact ⟨hab.1.trans hbc.1, sameShape_trans e _ _ hab.2 hbc.2⟩
  | call _ args _, b, c, hab, hbc => by
    cases b <;> simp only [sameShape, Bool.and_eq_true, Bool.false_eq_true, beq_iff_eq] at hab
    cases c <;> simp only [sameShape, Bool.and_eq_true, Bool.false_eq_true, beq_iff_eq] at hbc ⊢
    exact ⟨hab.1.trans hbc.1, sameShapes_trans args _ _ hab.2 hbc.2⟩
  | literal v _, b, c, hab, hbc => by
    cases b <;> simp only [sameShape, Bool.false_eq_true] at hab
    cases c <;> simp only [sameShape, Bool.false_eq_true] at hbc ⊢
    exact Literal.same_trans hab hbc
  | field path _, b, c, hab, hbc => by
    cases b <;> simp only [sameShape, Bool.false_eq_true, beq_iff_eq] at hab
    cases c <;> simp only [sameShape, Bool.false_eq_true, beq_iff_eq] at hbc ⊢
    exact hab.trans hbc

theorem sameShapes_trans : (es fs gs : List Expr) → sameShapes es fs = true →
    sameShapes fs gs = true → sameShapes es gs = true
  | [], [], _, _, h => h
  | e :: es, f :: fs, [], _, h => by simp [sameShapes] at h
  | e :: es, f :: fs, g :: gs, hef, hfg => by
    simp only [sameShapes, Bool.and_eq_true] at hef hfg ⊢
    exact ⟨sameShape_trans e f g hef.1 hfg.1, sameShapes_trans es fs gs hef.2 hfg.2⟩

end

theorem sameShape_equivalence : Equivalence fun a b : Expr => a.sameShape b = true :=
  ⟨sameShape_refl, fun {a b} h => by rw [sameShape_comm, h], fun {a b c} => sameShape_trans a b c⟩

mutual

theorem nodes_of_sameShape : (a b : Expr) → a.sameShape b = true →
    List.Forall₂ (fun m n => m.sameShape n = true) a.nodes b.nodes
  | binary _ l r _, b, h => by
    have hab := h
    cases b <;> simp only [sameShape, Bool.and_eq_true, Bool.false_eq_true] at h
    exact .cons hab (List.rel_append (nodes_of_sameShape l _ h.1.2) (nodes_of_sameShape r _ h.2))
  | unary _ e _, b, h => by
    have hab := h
    cases b <;> simp only [sameShape, Bool.and_eq_true, Bool.false_eq_true] at h
    exact .cons hab (nodes_of_sameShape e _ h.2)
  | call _ args _, b, h => by
    have hab := h
    cases b <;> simp only [sameShape, Bool.and_eq_true, Bool.false_eq_true] at h
    exact .cons hab (nodesList_of_sameShapes args _ h.2)
  | literal .., b, h => by
    have hab := h
    cases b <;> simp only [sameShape, Bool.false_eq_true] at h
    exact .cons hab .nil
  | field .., b, h => by
    have hab := h
    cases b <;> simp only [sameShape, Bool.false_eq_true] at h
    exact .cons hab .nil

theorem nodesList_of_sameShapes : (es fs : List Expr) → sameShapes es fs = true →
    List.Forall₂ (fun m n => m.sameShape n = true) (nodesList es) (nodesList fs)
  | [], [], _ => .nil
  | e :: es, f :: fs, h => by
    simp only [sameShapes, Bool.and_eq_true] at h
    exact List.rel_append (nodes_of_sameShape e f h.1) (nodesList_of_sameShapes es fs h.2)

end

/-- What is taken from nodes without regard to positions is the same for trees of one shape. -/
theorem filterMap_nodes_of_sameShape {α : Type} {f : Expr → Option α} {a b : Expr}
    (hf : ∀ m n, m.sameShape n = true → f m = f n) (h : a.sameShape b = true) :
    a.nodes.filterMap f = b.nodes.filterMap f := by
  have hn := nodes_of_sameShape a b h
  generalize a.nodes = as at hn ⊢
  generalize b.nodes = bs at hn ⊢
  induction hn with
  | nil => rfl
  | @cons m n _ _ hmn _ ih => rw [List.filterMap_cons, List.filterMap_cons, hf m n hmn, ih]

theorem fieldReferences_of_sameShape {a b : Expr} (h : a.sameShape b = true) :
    a.fieldReferences = b.fieldReferences := by
  refine filterMap_nodes_of_sameShape (fun m n hmn => ?_) h
  cases m <;> cases n <;> simp_all [sameShape]

theorem functionNames_of_sameShape {a b : Expr} (h : a.sameShape b = true) :
    a.functionNames = b.functionNames := by
  refine filterMap_nodes_of_sameShape (fun m n hmn => ?_) h
  cases m <;> cases n <;> simp_all [sameShape]

mutual

theorem depth_of_sameShape : (a b : Expr) → a.sameShape b = true → a.depth = b.depth
  | binary _ l r _, b, h => by
    cases b <;> simp only [sameShape, Bool.and_eq_true, Bool.false_eq_true] at h
    simp only [depth, depth_of_sameShape l _ h.1.2, depth_of_sameShape r _ h.2]
  | unary _ e _, b, h => by
    cases b <;> simp only [sameShape, Bool.and_eq_true, Bool.false_eq_true] at h
    simp only [depth, depth_of_sameShape e _ h.2]
  | call _ args _, b, h => by
    cases b <;> simp only [sameShape, Bool.and_eq_true, Bool.false_eq_true] at h
    simp only [depth, depthList_of_sameShapes args _ h.2]
  | literal .., b, h => by
    cases b <;> simp only [sameShape, Bool.false_eq_true] at h
    rfl
  | field .., b, h => by
    cases b <;> simp only [sameShape, Bool.false_eq_true] at h
    rfl

theorem depthList_of_sameShapes : (es fs : List Expr) → sameShapes es fs = true →
    depthList es = depthList fs
  | [], [], _ => rfl
  | e :: es, f :: fs, h => by
    simp only [sameShapes, Bool.and_eq_true] at h
    simp only [depthList, depth_of_sameShape e f h.1, depthList_of_sameShapes es fs h.2]

end

/-- The positions of all nodes, each before those below it, left to right. -/
def positions (e : Expr) : List Nat := e.nodes.map position

def positionsList (es : List Expr) : List Nat := (nodesList es).map position

theorem positions_binary (op : BinaryOp) (l r : Expr) (p : Nat) :
    (binary op l r p).positions = p :: (l.positions ++ r.positions) := by
  simp [positions, nodes, position]

theorem positions_unary (op : UnaryOp) (e : Expr) (p : Nat) :
    (unary op e p).positions = p :: e.positions := rfl

theorem positions_call (name : String) (args : List Expr) (p : Nat) :
    (call name args p).positions = p :: positionsList args := rfl

theorem positionsList_cons (e : Expr) (es : List Expr) :
    positionsList (e :: es) = e.positions ++ positionsList es := by
  simp [positionsList, positions, nodesList]

/-- Trees of one shape have equally many positions, so that those in front of others can be told. -/
theorem positions_append_iff {a b : Expr} (h : a.sameShape b = true) {ps qs : List Nat} :
    a.positions ++ ps = b.positions ++ qs ↔ a.positions = b.positions ∧ ps = qs := by
  have hlen : a.positions.length = b.positions.length := by
    simpa [positions] using (nodes_of_sameShape a b h).length_eq
  constructor
  · exact fun happ => List.append_inj happ hlen
  · rintro ⟨hp, hq⟩
    rw [hp, hq]

mutual

theorem same_iff : (a b : Expr) →
    (a.same b = true ↔ a.sameShape b = true ∧ a.positions = b.positions)
  | binary _ l r _, b => by
    cases b with
    | binary op' l' r' p' =>
      simp only [same, sameShape, Bool.and_eq_true, beq_iff_eq, same_iff l, same_iff r,
        positions_binary, List.cons.injEq]
      constructor
      · rintro ⟨⟨⟨hop, hl, hlp⟩, hr, hrp⟩, hp⟩
        exact ⟨⟨⟨hop, hl⟩, hr⟩, hp, (positions_append_iff hl).2 ⟨hlp, hrp⟩⟩
      · rintro ⟨⟨⟨hop, hl⟩, hr⟩, hp, happ⟩
        obtain ⟨hlp, hrp⟩ := (positions_append_iff hl).1 happ
        exact ⟨⟨⟨hop, hl, hlp⟩, hr, hrp⟩, hp⟩
    | unary | call | literal | field => simp [same, sameShape]
  | unary _ e _, b => by
    cases b with
    | unary op' e' p' =>
      simp only [same, sameShape, Bool.and_eq_true, beq_iff_eq, same_iff e, positions_unary,
        List.cons.injEq]
      constructor
      · rintro ⟨⟨hop, he, hep⟩, hp⟩
        exact ⟨⟨hop, he⟩, hp, hep⟩
      · rintro ⟨⟨hop, he⟩, hp, hep⟩
        exact ⟨⟨hop, he, hep⟩, hp⟩
    | binary | call | literal | field => simp [same, sameShape]
  | call _ args _, b => by
    cases b with
    | call name' args' p' =>
      simp only [same, sameShape, Bool.and_eq_true, beq_iff_eq, sameList_iff args, positions_call,
        List.cons.injEq]
      constructor
      · rintro ⟨⟨hname, hargs, hargsp⟩, hp⟩
        exact ⟨⟨hname, hargs⟩, hp, hargsp⟩
      · rintro ⟨⟨hname, hargs⟩, hp, hargsp⟩
        exact ⟨⟨hname, hargs, hargsp⟩, hp⟩
    | binary | unary | literal | field => simp [same, sameShape]
  | literal .., b => by cases b <;> simp [same, sameShape, positions, nodes, position]
  | field .., b => by cases b <;> simp [same, sameShape, positions, nodes, position]

theorem sameList_iff : (es fs : List Expr) →
    (sameList es fs = true ↔ sameShapes es fs = true ∧ positionsList es = positionsList fs)
  | [], [] => by simp [sameList, sameShapes]
  | [], f :: fs | e :: es, [] => by simp [sameList, sameShapes]
  | e :: es, f :: fs => by
    simp only [sameList, sameShapes, Bool.and_eq_true, same_iff e, sameList_iff es,
      positionsList_cons]
    constructor
    · rintro ⟨⟨he, hep⟩, hes, hesp⟩
      exact ⟨⟨he, hes⟩, (positions_append_iff he).2 ⟨hep, hesp⟩⟩
    · rintro ⟨⟨he, hes⟩, happ⟩
      obtain ⟨hep, hesp⟩ := (positions_append_iff he).1 happ
      exact ⟨⟨he, hep⟩, hes, hesp⟩

end

theorem same_refl (e : Expr) : e.same e = true := (same_iff e e).2 ⟨e.sameShape_refl, rfl⟩

/-- To have one shape is to be equal once all positions are zero; it is an equivalence, and together
with equal positions it is equality. Trees of one shape have equal depths, field paths and called
names. -/
theorem same_up_to_positions : (Equivalence fun a b : Expr => a.sameShape b = true) ∧
    ∀ a b : Expr, (a.sameShape b = true ↔ a.unplaced.same b.unplaced = true) ∧
      (a.same b = true ↔ a.sameShape b = true ∧ a.nodes.map position = b.nodes.map position) ∧
      (a.sameShape b = true → a.depth = b.depth ∧ a.fieldReferences = b.fieldReferences ∧
        a.functionNames = b.functionNames) := by
  refine ⟨sameShape_equivalence, fun a b => ⟨?_, same_iff a b, fun h => ?_⟩⟩
  · rw [same_unplaced]
  · exact ⟨depth_of_sameShape a b h, fieldReferences_of_sameShape h, functionNames_of_sameShape h⟩

end Expr

end RuleFormula
