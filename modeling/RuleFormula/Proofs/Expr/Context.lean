import RuleFormula.Proofs.Expr.Order

/-! Trees with a hole in the place of one node. Where no two nodes of a tree have the same position,
a field path is replaced by filling the hole in its place, and nothing else changes. -/
set_option autoImplicit false

namespace RuleFormula.Expr

mutual

/-- The tree with `new` in the place of the field path at a position. -/
def replaceField (place : Nat) (new : Expr) : Expr → Expr
  | binary op left right p =>
    binary op (replaceField place new left) (replaceField place new right) p
  | unary op operand p => unary op (replaceField place new operand) p
  | call name args p => call name (replaceFieldList place new args) p
  | literal value p => literal value p
  | field path p => if p = place then new else field path p

def replaceFieldList (place : Nat) (new : Expr) : List Expr → List Expr
  | [] => []
  | e :: es => replaceField place new e :: replaceFieldList place new es

end

inductive Context where
  | hole
  | left (op : BinaryOp) (c : Context) (right : Expr) (position : Nat)
  | right (op : BinaryOp) (left : Expr) (c : Context) (position : Nat)
  | operand (op : UnaryOp) (c : Context) (position : Nat)
  | argument (name : String) (before : List Expr) (c : Context) (after : List Expr) (position : Nat)

namespace Context

def fill (e : Expr) : Context → Expr
  | hole => e
  | left op c r p => .binary op (c.fill e) r p
  | right op l c p => .binary op l (c.fill e) p
  | operand op c p => .unary op (c.fill e) p
  | argument name before c after p => .call name (before ++ c.fill e :: after) p

def comp : Context → Context → Context
  | hole, d => d
  | left op c r p, d => left op (c.comp d) r p
  | right op l c p, d => right op l (c.comp d) p
  | operand op c p, d => operand op (c.comp d) p
  | argument name before c after p, d => argument name before (c.comp d) after p

@[simp] theorem fill_comp (c d : Context) (e : Expr) : (c.comp d).fill e = c.fill (d.fill e) := by
  induction c <;> simp_all [comp, fill]

end Context

theorem nodesList_append (es fs : List Expr) :
    nodesList (es ++ fs) = nodesList es ++ nodesList fs := by
  induction es with
  | nil => rfl
  | cons e es ih => simp [nodesList, ih]

theorem self_mem_nodes (e : Expr) : e ∈ e.nodes := by
  cases e <;> simp [nodes]

theorem Context.mem_nodes_fill (c : Context) (e : Expr) : e ∈ (c.fill e).nodes := by
  induction c with
  | hole => exact e.self_mem_nodes
  | _ => simp [fill, nodes, nodesList, nodesList_append, *]

theorem replaceFieldList_append (place : Nat) (new : Expr) (es fs : List Expr) :
    replaceFieldList place new (es ++ fs) =
      replaceFieldList place new es ++ replaceFieldList place new fs := by
  induction es with
  | nil => rfl
  | cons e es ih => simp [replaceFieldList, ih]

mutual

theorem replaceField_of_not_mem {place : Nat} (new : Expr) :
    (e : Expr) → place ∉ e.nodes.map position → replaceField place new e = e
  | binary op l r p, h => by
    simp only [nodes, List.map_cons, List.map_append, List.mem_cons, List.mem_append, not_or] at h
    obtain ⟨-, hl, hr⟩ := h
    rw [replaceField, replaceField_of_not_mem new l hl, replaceField_of_not_mem new r hr]
  | unary op e p, h => by
    rw [replaceField, replaceField_of_not_mem new e fun he => h (.tail _ he)]
  | call name args p, h => by
    rw [replaceField, replaceFieldList_of_not_mem new args fun ha => h (.tail _ ha)]
  | literal .., _ => rfl
  | field path p, h => by
    rw [replaceField, if_neg fun hp => h (by simp [nodes, position, hp])]

theorem replaceFieldList_of_not_mem {place : Nat} (new : Expr) :
    (es : List Expr) → place ∉ (nodesList es).map position → replaceFieldList place new es = es
  | [], _ => rfl
  | e :: es, h => by
    rw [nodesList, List.map_append, List.mem_append, not_or] at h
    rw [replaceFieldList, replaceField_of_not_mem new e h.1, replaceFieldList_of_not_mem new es h.2]

end

/-- The other nodes stay, as none of them has the position of the field path. -/
theorem Context.replaceField_fill {path : List String} {place : Nat} (new : Expr) (c : Context)
    (h : ((c.fill (field path place)).nodes.map position).Nodup) :
    replaceField place new (c.fill (field path place)) = c.fill new := by
  induction c with
  | hole => simp [fill, replaceField]
  | left op c r p ih =>
    have hmem : place ∈ (c.fill (field path place)).nodes.map position :=
      List.mem_map_of_mem (c.mem_nodes_fill (field path place))
    simp only [fill, nodes, List.map_cons, List.map_append, List.nodup_cons] at h
    obtain ⟨hc, -, hdisjoint⟩ := List.nodup_append.1 h.2
    rw [fill, replaceField, ih hc,
      replaceField_of_not_mem new r fun hr => hdisjoint _ hmem _ hr rfl]
    rfl
  | right op l c p ih =>
    have hmem : place ∈ (c.fill (field path place)).nodes.map position :=
      List.mem_map_of_mem (c.mem_nodes_fill (field path place))
    simp only [fill, nodes, List.map_cons, List.map_append, List.nodup_cons] at h
    obtain ⟨-, hc, hdisjoint⟩ := List.nodup_append.1 h.2
    rw [fill, replaceField, ih hc,
      replaceField_of_not_mem new l fun hl => hdisjoint _ hl _ hmem rfl]
    rfl
  | operand op c p ih =>
    rw [fill, replaceField, ih (List.nodup_cons.1 h).2]
    rfl
  | argument name before c after p ih =>
    have hmem : place ∈ (c.fill (field path place)).nodes.map position :=
      List.mem_map_of_mem (c.mem_nodes_fill (field path place))
    simp only [fill, nodes, nodesList_append, nodesList, List.map_cons, List.map_append,
      List.nodup_cons] at h
    obtain ⟨-, hrest, hbefore⟩ := List.nodup_append.1 h.2
    obtain ⟨hc, -, hafter⟩ := List.nodup_append.1 hrest
    have hb := replaceFieldList_of_not_mem new before fun hb =>
      hbefore _ hb _ (List.mem_append_left _ hmem) rfl
    have ha := replaceFieldList_of_not_mem new after fun ha => hafter _ hmem _ ha rfl
    rw [fill, replaceField, replaceFieldList_append, replaceFieldList, ih hc, hb, ha]
    rfl

end RuleFormula.Expr
