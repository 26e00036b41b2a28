import RuleFormula.Proofs.Expr.Order
import RuleFormula.Proofs.Grammar.Phrase

set_option autoImplicit false

namespace RuleFormula.Grammar

/-- The tokens that a node can come from: its operator, the name that it calls, its literal, or the
first token of its field path. -/
inductive Introduces (t : Token) : Expr → Prop
  | joins {tier : Tier} {op : BinaryOp} {left right : Expr} (h : Joins t tier op) :
      Introduces t (.binary op left right t.location.offset)
  | power {base exponent : Expr} (h : t.kind = .caret) :
      Introduces t (.binary .power base exponent t.location.offset)
  | negate {e : Expr} (h : t.kind = .minus) : Introduces t (.unary .negate e t.location.offset)
  | not {e : Expr} (h : t.kind = .not ∨ t.isWord "NOT") :
      Introduces t (.unary .not e t.location.offset)
  | call {args : List Expr} (h : t.kind = .identifier) :
      Introduces t (.call t.text args t.location.offset)
  | number {d : Decimal} (h : t.kind = .number) (hd : Decimal.read t.text = .ok d) :
      Introduces t (.literal (.number d) t.location.offset)
  | string (h : t.kind = .string) :
      Introduces t (.literal (.string (Quoted.decode t.text)) t.location.offset)
  | boolean (b : Bool)
      (h : t.kind = .boolean ∧ Text.sameWord t.text (if b then "TRUE" else "FALSE") ∨
        t.isWord (if b then "TRUE" else "FALSE")) :
      Introduces t (.literal (.boolean b) t.location.offset)
  | null (h : t.kind = .null ∨ t.isWord "NULL") : Introduces t (.literal .null t.location.offset)
  | field {names : List String} (h : t.kind = .identifier) :
      Introduces t (.field (t.text :: names) t.location.offset)
  | global {name : String} {names : List String} (h : t.kind = .fieldMarker) :
      Introduces t (.field (("$" ++ name) :: names) t.location.offset)

theorem Introduces.position_eq {t : Token} {n : Expr} (h : Introduces t n) :
    n.position = t.location.offset := by
  cases h <;> rfl

/-- Some of the tokens introduce the nodes, in turn. -/
def Introduced (ts : List Token) (nodes : List Expr) : Prop :=
  ∃ pairs : List (Token × Expr), (pairs.map Prod.fst).Sublist ts ∧ pairs.map Prod.snd = nodes ∧
    ∀ p ∈ pairs, Introduces p.1 p.2

namespace Introduced

variable {ts us : List Token} {nodes more : List Expr} {t : Token} {n : Expr}

theorem nil (ts : List Token) : Introduced ts [] := ⟨[], List.nil_sublist ts, rfl, by simp⟩

theorem single (h : Introduces t n) : Introduced [t] [n] :=
  ⟨[(t, n)], .refl _, rfl, by simpa using h⟩

theorem append (h : Introduced ts nodes) (h' : Introduced us more) :
    Introduced (ts ++ us) (nodes ++ more) := by
  obtain ⟨ps, hts, rfl, hps⟩ := h
  obtain ⟨qs, hus, rfl, hqs⟩ := h'
  refine ⟨ps ++ qs, ?_, List.map_append, fun p hp => ?_⟩
  · rw [List.map_append]
    exact hts.append hus
  · exact (List.mem_append.1 hp).elim (hps p) (hqs p)

theorem cons (hn : Introduces t n) (h : Introduced ts nodes) : Introduced (t :: ts) (n :: nodes) :=
  (single hn).append h

theorem skip (t : Token) (h : Introduced ts nodes) : Introduced (t :: ts) nodes :=
  (nil [t]).append h

theorem extend (h : Introduced ts nodes) (us : List Token) : Introduced (ts ++ us) nodes := by
  have hmore := h.append (nil us)
  rwa [List.append_nil] at hmore

theorem first (ts : List Token) (hn : Introduces t n) : Introduced (t :: ts) [n] := cons hn (nil ts)

theorem exists_mem (h : Introduced ts nodes) (hn : n ∈ nodes) : ∃ t ∈ ts, Introduces t n := by
  obtain ⟨ps, hts, rfl, hps⟩ := h
  obtain ⟨p, hp, rfl⟩ := List.mem_map.1 hn
  exact ⟨p.1, hts.subset (List.mem_map_of_mem hp), hps p hp⟩

theorem pairwise (h : Introduced ts nodes)
    (hts : ts.Pairwise fun a b => a.location.offset < b.location.offset) :
    nodes.Pairwise Expr.Before := by
  obtain ⟨ps, hsub, rfl, hps⟩ := h
  have hfirst := List.pairwise_map.1 (hts.sublist hsub)
  refine List.pairwise_map.2 (hfirst.imp_of_mem fun {p q} hp hq hlt => ?_)
  rw [Expr.Before, (hps p hp).position_eq, (hps q hq).position_eq]
  exact hlt

theorem positions_sublist (h : Introduced ts nodes) :
    (nodes.map Expr.position).Sublist (ts.map (·.location.offset)) := by
  obtain ⟨ps, hsub, rfl, hps⟩ := h
  have hplaces := hsub.map fun t : Token => t.location.offset
  have heq : ps.map (Expr.position ∘ Prod.snd) = ps.map fun p => p.1.location.offset :=
    List.map_congr_left fun p hp => (hps p hp).position_eq
  rw [List.map_map, heq]
  rwa [List.map_map] at hplaces

end Introduced

mutual

theorem Phrase.introduced {tier : Tier} {ts : List Token} {e : Expr} :
    Phrase tier ts e → Introduced ts e.inOrder
  | .chain _ head tail => tail.introduced head.introduced
  | .bang h p => .cons (.not (.inl h)) p.introduced
  | .word h _ p => .cons (.not (.inr h)) p.introduced
  | .comparison p | .sign p => p.introduced
  | .power b h x => b.introduced.append (.cons (.power h) x.introduced)
  | .minus h p => .cons (.negate h) p.introduced
  | .plus _ p => .skip _ p.introduced
  | .operand p => p.introduced

theorem Chain.introduced {tier next : Tier} {ts us : List Token} {left e : Expr} :
    Chain tier next us left e → Introduced ts left.inOrder → Introduced (ts ++ us) e.inOrder
  | .done, hl => by rwa [List.append_nil]
  | .more h p tail, hl => by
    have hmore := tail.introduced (hl.append (.cons (.joins h) p.introduced))
    rwa [List.append_assoc] at hmore

theorem Operand.introduced {ts : List Token} {e : Expr} : Operand ts e → Introduced ts e.inOrder
  | .number h hd => .single (.number h hd)
  | .string h => .single (.string h)
  | .boolean b h hw => .single (.boolean b (.inl ⟨h, hw⟩))
  | .booleanWord b hw => .single (.boolean b (.inr hw))
  | .null h => .single (.null h)
  | .path h _ _ => .first _ (.field h)
  | .global h _ _ => .first _ (.global h)
  | .emptyCall h _ _ => .first _ (.call h)
  | .call h _ args => .cons (.call h) (.skip _ args.introduced)
  | .group _ p _ => .skip _ (p.introduced.extend _)

theorem Arguments.introduced {ts : List Token} {es : List Expr} :
    Arguments ts es → Introduced ts (Expr.inOrderList es)
  | .last p _ => p.introduced.append (.nil _)
  | .more p _ rest => p.introduced.append (.skip _ rest.introduced)

end

end RuleFormula.Grammar
