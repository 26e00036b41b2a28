import RuleFormula.Expr.Basic

set_option autoImplicit false

namespace RuleFormula.Expr

mutual

/-- All nodes, each binary one between those of its operands. -/
def inOrder : Expr → List Expr
  | binary op left right p => left.inOrder ++ binary op left right p :: right.inOrder
  | unary op operand p => unary op operand p :: operand.inOrder
  | call name args p => call name args p :: inOrderList args
  | literal value p => [literal value p]
  | field path p => [field path p]

def inOrderList : List Expr → List Expr
  | [] => []
  | e :: es => e.inOrder ++ inOrderList es

end

mutual

theorem nodes_perm_inOrder : (e : Expr) → e.nodes.Perm e.inOrder
  | binary op l r p => by
    have hl := nodes_perm_inOrder l
    have hr := nodes_perm_inOrder r
    exact ((hl.append hr).cons _).trans List.perm_middle.symm
  | unary op e p => (nodes_perm_inOrder e).cons _
  | call name args p => (nodesList_perm_inOrderList args).cons _
  | literal .. | field .. => .refl _

theorem nodesList_perm_inOrderList : (es : List Expr) → (nodesList es).Perm (inOrderList es)
  | [] => .refl _
  | e :: es => (nodes_perm_inOrder e).append (nodesList_perm_inOrderList es)

end

theorem mem_nodes_iff {e n : Expr} : n ∈ e.nodes ↔ n ∈ e.inOrder := e.nodes_perm_inOrder.mem_iff

theorem mem_nodesList_iff {es : List Expr} {n : Expr} : n ∈ nodesList es ↔ n ∈ inOrderList es :=
  (nodesList_perm_inOrderList es).mem_iff

mutual

/-- Only binary nodes have another place among the others. -/
theorem filterMap_nodes {α : Type} {f : Expr → Option α}
    (hf : ∀ op l r p, f (binary op l r p) = none) :
    (e : Expr) → e.nodes.filterMap f = e.inOrder.filterMap f
  | binary op l r p => by
    simp only [nodes, inOrder, List.filterMap_append, List.filterMap_cons, hf, filterMap_nodes hf l,
      filterMap_nodes hf r]
  | unary op e p => by simp only [nodes, inOrder, List.filterMap_cons, filterMap_nodes hf e]
  | call name args p => by
    simp only [nodes, inOrder, List.filterMap_cons, filterMap_nodesList hf args]
  | literal .. | field .. => rfl

theorem filterMap_nodesList {α : Type} {f : Expr → Option α}
    (hf : ∀ op l r p, f (binary op l r p) = none) :
    (es : List Expr) → (nodesList es).filterMap f = (inOrderList es).filterMap f
  | [] => rfl
  | e :: es => by
    simp only [nodesList, inOrderList, List.filterMap_append, filterMap_nodes hf e,
      filterMap_nodesList hf es]

end

theorem inOrder_sublist_of_mem_args {es : List Expr} {e : Expr} (h : e ∈ es) :
    e.inOrder.Sublist (inOrderList es) := by
  induction es with
  | nil => cases h
  | cons f es ih =>
    rcases List.mem_cons.1 h with rfl | h
    · exact List.sublist_append_left _ _
    · exact (ih h).trans (List.sublist_append_right _ _)

mutual

theorem inOrder_sublist {n : Expr} : (e : Expr) → n ∈ e.nodes → n.inOrder.Sublist e.inOrder
  | binary op l r p, h => by
    rcases List.mem_cons.1 h with rfl | h
    · exact .refl _
    · rcases List.mem_append.1 h with h | h
      · exact (inOrder_sublist l h).trans (List.sublist_append_left _ _)
      · exact ((inOrder_sublist r h).cons _).trans (List.sublist_append_right _ _)
  | unary op e p, h => by
    rcases List.mem_cons.1 h with rfl | h
    · exact .refl _
    · exact (inOrder_sublist e h).cons _
  | call name args p, h => by
    rcases List.mem_cons.1 h with rfl | h
    · exact .refl _
    · exact (inOrderList_sublist args h).cons _
  | literal .., h | field .., h => by
    obtain rfl := List.mem_singleton.1 h
    exact .refl _

theorem inOrderList_sublist {n : Expr} : (es : List Expr) → n ∈ nodesList es →
    n.inOrder.Sublist (inOrderList es)
  | e :: es, h => by
    rcases List.mem_append.1 h with h | h
    · exact (inOrder_sublist e h).trans (List.sublist_append_left _ _)
    · exact (inOrderList_sublist es h).trans (List.sublist_append_right _ _)

end

def Before (a b : Expr) : Prop := a.position < b.position

/-- The operands of a node, and it itself, stand in the order in which they are written. -/
def Ordered : Expr → Prop
  | binary _ left right p =>
    (∀ a ∈ left.nodes, a.position < p) ∧ ∀ b ∈ right.nodes, p < b.position
  | unary _ operand p => ∀ a ∈ operand.nodes, p < a.position
  | call _ args p =>
    (∀ a ∈ nodesList args, p < a.position) ∧
      args.Pairwise fun x y => ∀ a ∈ x.nodes, ∀ b ∈ y.nodes, a.position < b.position
  | literal .. | field .. => True

theorem args_pairwise {es : List Expr} (h : (inOrderList es).Pairwise Before) :
    es.Pairwise fun x y => ∀ a ∈ x.nodes, ∀ b ∈ y.nodes, a.position < b.position := by
  induction es with
  | nil => exact .nil
  | cons e es ih =>
    obtain ⟨-, hes, hcross⟩ := List.pairwise_append.1 h
    refine List.pairwise_cons.2 ⟨fun y hy a ha b hb => ?_, ih hes⟩
    exact hcross a (mem_nodes_iff.1 ha) b
      ((inOrder_sublist_of_mem_args hy).subset (mem_nodes_iff.1 hb))

theorem ordered_of_pairwise {e : Expr} (h : e.inOrder.Pairwise Before) : e.Ordered := by
  cases e with
  | binary op l r p =>
    obtain ⟨-, hr, hcross⟩ := List.pairwise_append.1 h
    refine ⟨fun a ha => hcross a (mem_nodes_iff.1 ha) _ (.head _), fun b hb => ?_⟩
    exact (List.pairwise_cons.1 hr).1 b (mem_nodes_iff.1 hb)
  | unary op e p => exact fun a ha => (List.pairwise_cons.1 h).1 a (mem_nodes_iff.1 ha)
  | call name args p =>
    obtain ⟨hfirst, hargs⟩ := List.pairwise_cons.1 h
    exact ⟨fun a ha => hfirst a (mem_nodesList_iff.1 ha), args_pairwise hargs⟩
  | literal | field => trivial

def placedReferences (e : Expr) : List (List String × Nat) :=
  e.nodes.filterMap fun
    | field path p => some (path, p)
    | _ => none

def placedNames (e : Expr) : List (String × Nat) :=
  e.nodes.filterMap fun
    | call name _ p => some (name, p)
    | _ => none

theorem placedReferences_fst (e : Expr) : e.placedReferences.map Prod.fst = e.fieldReferences := by
  rw [placedReferences, fieldReferences, List.map_filterMap]
  congr 1
  funext n
  cases n <;> rfl

theorem placedNames_fst (e : Expr) : e.placedNames.map Prod.fst = e.functionNames := by
  rw [placedNames, functionNames, List.map_filterMap]
  congr 1
  funext n
  cases n <;> rfl

theorem pairwise_filterMap_nodes {α : Type} {f : Expr → Option (α × Nat)}
    (hf : ∀ op l r p, f (binary op l r p) = none) (hp : ∀ n x, f n = some x → x.2 = n.position)
    {e : Expr} (h : e.inOrder.Pairwise Before) :
    (e.nodes.filterMap f).Pairwise fun a b => a.2 < b.2 := by
  rw [filterMap_nodes hf, List.pairwise_filterMap]
  refine h.imp fun {a b} hab x hx y hy => ?_
  rw [hp a x hx, hp b y hy]
  exact hab

theorem placedReferences_pairwise {e : Expr} (h : e.inOrder.Pairwise Before) :
    e.placedReferences.Pairwise fun a b => a.2 < b.2 := by
  refine pairwise_filterMap_nodes (fun _ _ _ _ => rfl) (fun n x hx => ?_) h
  cases n <;> cases hx
  rfl

theorem placedNames_pairwise {e : Expr} (h : e.inOrder.Pairwise Before) :
    e.placedNames.Pairwise fun a b => a.2 < b.2 := by
  refine pairwise_filterMap_nodes (fun _ _ _ _ => rfl) (fun n x hx => ?_) h
  cases n <;> cases hx
  rfl

end RuleFormula.Expr
