import RuleFormula.Expr.Render
import RuleFormula.Json.Encode
import RuleFormula.Proofs.Decimal.Digits
import RuleFormula.Proofs.Formula
import RuleFormula.Proofs.Grammar.Substitution
import RuleFormula.Proofs.Token.Rejected

set_option autoImplicit false

namespace RuleFormula

open Grammar

namespace Digits

variable {n : Digits} {rest : List Char}

theorem isNumeral (n : Digits) : IsNumeral n.text := by
  rw [text]
  by_cases hp : n.places = []
  · rw [if_pos hp, List.append_nil]
    exact .whole n.whole_ne_nil n.whole_isDigit
  · rw [if_neg hp]
    exact .places n.whole_ne_nil n.whole_isDigit hp n.places_isDigit

theorem next_of_fits {c : Cursor} (h : n.Fits) (hn : c.skipTrivia.rest = n.text ++ rest)
    (hr : ∀ x ∈ rest.head?, x.isDigit = false ∧ x ≠ '.' ∧ Text.isNameStart x = false) :
    c.next = (.ok ⟨.number, String.ofList n.text, c.skipTrivia.location⟩,
      ⟨rest, c.skipTrivia.location.advance n.text⟩) :=
  Cursor.next_of_scan hn (Lexeme.scan_of_matches (.numeral n.isNumeral (read_text h) hr))

theorem exists_next_of_not_fits {c : Cursor} (h : ¬ n.Fits)
    (hn : c.skipTrivia.rest = n.text ++ rest)
    (hr : ∀ x ∈ rest.head?, x.isDigit = false ∧ x ≠ '.' ∧ Text.isNameStart x = false) :
    ∃ E d, c.next = (.error E, d) ∧ E.location = c.skipTrivia.location ∧ ∃ reason,
      E.message = "Number '" ++ String.ofList n.text ++
        "' cannot be represented exactly: " ++ reason := by
  obtain ⟨e, he⟩ := exists_read_error h
  obtain ⟨cause, stop, hs, hmessage⟩ := Lexeme.exists_scan_of_faulty
    (.inexact n.isNumeral hr (Numeral.exceeds_of_read n.isNumeral he))
  rw [← hn] at hs
  exact ⟨_, _, Cursor.next_of_fault hs, rfl, _, hmessage⟩

end Digits

theorem literal_mem_nodes {limit : Nat} {front back : List Token} {t : Token}
    {d : Decimal} {e : Expr}
    (h : parseTokens limit (front ++ t :: back) = .ok e) (ht : t.kind = .number)
    (hd : Decimal.read t.text = .ok d) : .literal (.number d) t.location.offset ∈ e.nodes := by
  obtain ⟨s, hs, hend, hread⟩ := exists_ended_of_parseTokens h
  obtain ⟨p, -⟩ := TokenStream.readFormula_eq_ok_iff.1 hread
  have halone : ∀ more, Alone front t more := fun more => ⟨by simp [ht], by simp [ht]⟩
  obtain ⟨more, hbody, -⟩ | ⟨more, -, hmore⟩ := append_eq_append_cons hs
  · exact p.mem_nodes (.number ht hd) hbody (halone more)
  · obtain ⟨-, rfl, -⟩ | ⟨_, -, hnil⟩ := cons_eq_append_cons hmore
    · rw [hend.1] at ht
      cases ht
    · simp at hnil

/-- A number is read if its digits without the point stay below `2 ^ 96` and at most 28 are behind
the point. Then the tree has the decimal of exactly these digits, which is written with all of them
but superfluous zeros in front. All other numbers are reported where they start. -/
theorem numeral_exact (n : Digits) {c : Cursor} {rest : List Char}
    (hn : c.skipTrivia.rest = n.text ++ rest)
    (hr : ∀ x ∈ rest.head?, x.isDigit = false ∧ x ≠ '.' ∧ Text.isNameStart x = false) :
    ((∃ t, c.next.1 = .ok t ∧ t.kind = .number) ↔ n.Fits) ∧
    (∀ h : n.Fits,
      c.next = (.ok ⟨.number, String.ofList n.text, c.skipTrivia.location⟩,
        ⟨rest, c.skipTrivia.location.advance n.text⟩) ∧
      (∀ s ts limit e, (Cursor.ofSource s).Produces ts c → parseFormula limit s = .ok e →
        .literal (.number (Digits.decimal h)) c.skipTrivia.location.offset ∈ e.nodes) ∧
      (Digits.decimal h).coefficient = n.value ∧ (Digits.decimal h).scale = n.places.length ∧
      ∀ p, (Expr.literal (.number (Digits.decimal h)) p).render = String.ofList n.reduced.text ∧
        (Expr.literal (.number (Digits.decimal h)) p).toJson =
          .object [("literalType", .string "NUMBER"), ("position", .number p),
            ("type", .string "literal"), ("value", .string (String.ofList n.reduced.text))]) ∧
    (¬ n.Fits → ∃ E, c.next.1 = .error E ∧
      (∀ s ts, (Cursor.ofSource s).Produces ts c → tokenize s = .error E) ∧
      E.location = c.skipTrivia.location ∧ ∃ reason, E.message =
        "Number '" ++ String.ofList n.text ++ "' cannot be represented exactly: " ++ reason) := by
  refine ⟨⟨fun hx => ?_, fun h => ?_⟩, fun h => ?_, fun h => ?_⟩
  · obtain ⟨t, ht, -⟩ := hx
    by_cases h : n.Fits
    · exact h
    · obtain ⟨E, d, hE, -⟩ := Digits.exists_next_of_not_fits h hn hr
      rw [hE] at ht
      cases ht
  · exact ⟨_, congrArg Prod.fst (Digits.next_of_fits h hn hr), rfl⟩
  · have hnext := Digits.next_of_fits h hn hr
    have htext := Digits.toText_decimal h
    refine ⟨hnext, fun s ts limit e hc he => ?_, rfl, rfl, fun p => ⟨htext, ?_⟩⟩
    · obtain ⟨us, hus, hparse⟩ := parseFormula_eq_ok_iff.1 he
      obtain ⟨more, rfl⟩ := hc.exists_of_token hnext (by simp) hus
      exact literal_mem_nodes hparse rfl (Digits.read_text h)
    · rw [Expr.toJson, Literal.typeName, Literal.toJson, htext]
  · obtain ⟨E, d, hE, hplace, hmessage⟩ := Digits.exists_next_of_not_fits h hn hr
    exact ⟨E, congrArg Prod.fst hE, fun s ts hc => hc.tokenize_of_error hE, hplace, hmessage⟩

theorem numeral_exact_amount : ∃ e, parseFormula 1 " 007.50" = .ok e ∧
    .literal (.number ⟨750, 2, by decide, by decide⟩) 1 ∈ e.nodes ∧
    (Expr.literal (.number ⟨750, 2, by decide, by decide⟩) 1).render = "7.50" := by
  let n : Digits := ⟨['0', '0', '7'], ['5', '0'], by simp, by simp, by simp⟩
  have hn : (Cursor.ofSource " 007.50").skipTrivia.rest = n.text ++ [] := by decide +kernel
  have hplace : (Cursor.ofSource " 007.50").skipTrivia.location.offset = 1 := by decide +kernel
  have h : n.Fits := ⟨by decide, by decide⟩
  have hd : Digits.decimal h = ⟨750, 2, by decide, by decide⟩ :=
    Decimal.eq_of_coefficient_scale rfl rfl
  have hparse : (parseFormula 1 " 007.50").toOption.map (fun _ => ()) = some () := by decide +kernel
  obtain ⟨e, he, -⟩ := exists_ok_of_map hparse
  obtain ⟨-, hfits, -⟩ := numeral_exact n hn (by simp)
  obtain ⟨-, hmem, -, -, hwritten⟩ := hfits h
  rw [hplace, hd] at hmem
  rw [hd] at hwritten
  exact ⟨e, he, hmem _ _ _ _ (.none _) he, (hwritten 1).1⟩

end RuleFormula
