import RuleFormula.Proofs.Formula
import RuleFormula.Proofs.Grammar.Introduced
import RuleFormula.Proofs.Token.Onward

set_option autoImplicit false

namespace RuleFormula

open Grammar

theorem exists_introduced_of_parseFormula {limit : Nat} {s : String} {e : Expr}
    (h : parseFormula limit s = .ok e) : ∃ body ending, tokenize s = .ok (body ++ [ending]) ∧
      Introduced body e.inOrder := by
  obtain ⟨ts, ht, hp⟩ := parseFormula_eq_ok_iff.1 h
  obtain ⟨body, ending, rfl, -, hne, he⟩ := Reads.of_tokens ht
  rw [parseTokens_append limit he hne] at hp
  obtain ⟨p, -⟩ := TokenStream.readFormula_eq_ok_iff.1 hp
  exact ⟨body, ending, ht, p.introduced⟩

theorem body_of_tokenize {s : String} {body : List Token} {ending : Token}
    (h : tokenize s = .ok (body ++ [ending])) :
    body.Pairwise (fun a b => a.location.offset < b.location.offset) ∧
      ∀ t ∈ body, t.location.offset < s.length := by
  obtain ⟨hsorted, -, hend⟩ := List.pairwise_append.1 (Cursor.tokens_pairwise h).1
  have hin := ((Cursor.ofSource_on s).tokens.1 _ h ending (by simp)).1
  rw [String.length_toList] at hin
  refine ⟨hsorted, fun t ht => ?_⟩
  exact Nat.lt_of_lt_of_le (hend t ht ending (List.mem_singleton_self ending)) hin

/-- Every node of a source's tree has the place of the token that introduces it. The operands of a
node, and it itself, are in the order of the source, so that all positions are distinct; and the
field paths and the called names are listed in that order. -/
theorem parseFormula_positions {limit : Nat} {s : String} {e : Expr}
    (h : parseFormula limit s = .ok e) :
    (∃ ts, tokenize s = .ok ts ∧
      ∀ n ∈ e.nodes, ∃ t ∈ ts, n.position = t.location.offset ∧ Introduces t n) ∧
    (∀ n ∈ e.nodes, n.Ordered) ∧
    ((e.nodes.map Expr.position).Nodup ∧ ∀ n ∈ e.nodes, n.position < s.length) ∧
    (e.placedReferences.map Prod.fst = e.fieldReferences ∧
      e.placedReferences.Pairwise fun a b => a.2 < b.2) ∧
    e.placedNames.map Prod.fst = e.functionNames ∧ e.placedNames.Pairwise fun a b => a.2 < b.2 := by
  obtain ⟨body, ending, ht, hintro⟩ := exists_introduced_of_parseFormula h
  obtain ⟨hsorted, hinside⟩ := body_of_tokenize ht
  have horder : e.inOrder.Pairwise Expr.Before := hintro.pairwise hsorted
  have htoken {n : Expr} (hn : n ∈ e.nodes) : ∃ t ∈ body, Introduces t n :=
    hintro.exists_mem (Expr.mem_nodes_iff.1 hn)
  refine ⟨⟨_, ht, fun n hn => ?_⟩, fun n hn => ?_, ⟨?_, fun n hn => ?_⟩,
    ⟨e.placedReferences_fst, Expr.placedReferences_pairwise horder⟩,
    e.placedNames_fst, Expr.placedNames_pairwise horder⟩
  · obtain ⟨t, ht, hn⟩ := htoken hn
    exact ⟨t, List.mem_append_left _ ht, hn.position_eq, hn⟩
  · exact Expr.ordered_of_pairwise (horder.sublist (Expr.inOrder_sublist e hn))
  · rw [(e.nodes_perm_inOrder.map Expr.position).nodup_iff]
    exact List.pairwise_map.2 (horder.imp Nat.ne_of_lt)
  · obtain ⟨t, ht, hn⟩ := htoken hn
    rw [hn.position_eq]
    exact hinside t ht

theorem parseFormula_positions_power : ∃ e, parseFormula 4 "f(-x, $a.b) ^ g()" = .ok e ∧
    e.nodes.map Expr.position = [12, 0, 2, 3, 6, 14] ∧
    e.placedReferences = [(["x"], 3), (["$a", "b"], 6)] ∧ e.placedNames = [("f", 0), ("g", 14)] ∧
    ∀ n ∈ e.nodes, n.Ordered := by
  have h : (parseFormula 4 "f(-x, $a.b) ^ g()").toOption.map
      (fun e => (e.nodes.map Expr.position, e.placedReferences, e.placedNames)) =
        some ([12, 0, 2, 3, 6, 14], [(["x"], 3), (["$a", "b"], 6)], [("f", 0), ("g", 14)]) := by
    decide +kernel
  obtain ⟨e, he, hplaces⟩ := exists_ok_of_map h
  obtain ⟨hpositions, hnext⟩ := Prod.mk.inj hplaces
  obtain ⟨hreferences, hnames⟩ := Prod.mk.inj hnext
  obtain ⟨-, hordered, -⟩ := parseFormula_positions he
  exact ⟨e, he, hpositions, hreferences, hnames, hordered⟩

end RuleFormula
