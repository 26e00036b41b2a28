import RuleFormula.Proofs.Decimal.Text
import RuleFormula.Proofs.Text.Name
import RuleFormula.Token.Lexeme
import RuleFormula.Token.Trivia

/-! Lexemes with more text behind them: each is read whole and nothing more, if what follows does
not go on with it. -/
set_option autoImplicit false

namespace RuleFormula

theorem takeWhile_append_of_head {p : Char → Bool} {cs rest : List Char} (h : ∀ c ∈ cs, p c = true)
    (hr : ∀ c ∈ rest.head?, p c = false) : (cs ++ rest).takeWhile p = cs := by
  rw [List.takeWhile_append_of_pos h]
  cases rest with
  | nil => simp
  | cons c rest => simp [hr c rfl]

theorem dropWhile_append_of_head {p : Char → Bool} {cs rest : List Char} (h : ∀ c ∈ cs, p c = true)
    (hr : ∀ c ∈ rest.head?, p c = false) : (cs ++ rest).dropWhile p = rest := by
  rw [List.dropWhile_append_of_pos h]
  cases rest with
  | nil => rfl
  | cons c rest => simp [hr c rfl]

theorem Trivia.split_eq_nil {cs : List Char} (hb : ∀ c ∈ cs.head?, Text.isBlank c = false)
    (hc : ['/', '*'].isPrefixOf cs = false) : split cs = ([], cs) := by
  unfold split
  split
  · rfl
  · simp at hc
  · next c cs _ => simp [hb c rfl]

theorem Trivia.split_cons {c : Char} {cs : List Char} (hb : Text.isBlank c = false) (hc : c ≠ '/') :
    split (c :: cs) = ([], c :: cs) := by
  apply split_eq_nil
  · intro d hd
    cases hd
    exact hb
  · simp [List.isPrefixOf, Ne.symm hc]

theorem Trivia.split_space (cs : List Char) : split (' ' :: cs) = cons ' ' (split cs) := rfl

namespace Numeral

theorem bounded_eq_ok {width : Nat} {rest : List Char}
    (hr : ∀ c ∈ rest.head?, Text.isNameStart c = false) : bounded width rest = .ok width := by
  cases rest with
  | nil => rfl
  | cons c rest => simp [bounded, hr c rfl]

variable {ds rest : List Char} (hd : ∀ c ∈ ds, c.isDigit = true)
  (hr : ∀ c ∈ rest.head?, c.isDigit = false ∧ c ≠ '.' ∧ Text.isNameStart c = false)
include hd hr

theorem scan_whole : scan (ds ++ rest) = .ok ds.length := by
  have hdigit (c : Char) (h : c ∈ rest.head?) := (hr c h).1
  have hn := @bounded_eq_ok ds.length rest fun c h => (hr c h).2.2
  simp only [scan, takeWhile_append_of_head hd hdigit, dropWhile_append_of_head hd hdigit]
  split
  · next cs => exact absurd rfl (hr '.' rfl).2.1
  · exact hn

theorem scan_places {ws : List Char} (hw : ∀ c ∈ ws, c.isDigit = true) (hne : ds ≠ []) :
    scan (ws ++ '.' :: (ds ++ rest)) = .ok (ws.length + 1 + ds.length) := by
  have hdigit (c : Char) (h : c ∈ rest.head?) := (hr c h).1
  have hn := @bounded_eq_ok (ws.length + 1 + ds.length) rest fun c h => (hr c h).2.2
  have hpoint : ∀ c ∈ ('.' :: (ds ++ rest)).head?, c.isDigit = false := by simp
  have hlen : ds.length ≠ 0 := by simpa using hne
  simp only [scan, takeWhile_append_of_head hw hpoint, dropWhile_append_of_head hw hpoint,
    takeWhile_append_of_head hd hdigit, dropWhile_append_of_head hd hdigit, if_neg hlen]
  split
  · exact absurd rfl (hr '.' rfl).2.1
  · exact hn

omit hd in
theorem scan_toText {d : Decimal} (h : 0 ≤ d.coefficient) :
    scan (d.toText.toList ++ rest) = .ok d.toText.toList.length := by
  obtain ⟨c, cs, hw, hdigits⟩ :=
    Decimal.exists_toDigits (d.coefficient.natAbs / Decimal.tens d.scale)
  rw [Decimal.toList_toText h, hw]
  by_cases hs : d.scale = 0
  · rw [if_pos hs, List.append_nil]
    exact scan_whole hdigits hr
  · have hne : Decimal.lowDigits d.scale d.coefficient.natAbs ≠ [] := by
      intro he
      have hlen := Decimal.length_lowDigits d.scale d.coefficient.natAbs
      rw [he] at hlen
      exact hs hlen.symm
    have hp := scan_places (fun x hx => Decimal.isDigit_of_mem_lowDigits hx) hr hdigits hne
    rw [if_neg hs, List.append_assoc]
    simpa [Nat.add_assoc, Nat.add_comm] using hp

end Numeral

namespace Quoted

theorem scan_quote (quote : Char) (cs : List Char) : scan quote (quote :: cs) = .closed 1 := by
  rw [scan.eq_def]
  simp

theorem scan_plain {quote c : Char} (hq : c ≠ quote) (hb : c ≠ '\\') (cs : List Char) :
    scan quote (c :: cs) = (scan quote cs).shift 1 := by
  rw [scan.eq_def]
  simp [hq, hb]

theorem scan_encodeChar (c : Char) (cs : List Char) :
    scan '\'' (encodeChar c ++ cs) = (scan '\'' cs).shift (encodeChar c).length := by
  unfold encodeChar
  split <;> try rfl
  next h₁ h₂ h₃ h₄ h₅ => exact scan_plain h₁ h₂ cs

theorem scan_flatMap (cs rest : List Char) :
    scan '\'' (cs.flatMap encodeChar ++ '\'' :: rest) =
      .closed ((cs.flatMap encodeChar).length + 1) := by
  induction cs with
  | nil => exact scan_quote '\'' rest
  | cons c cs ih =>
    rw [List.flatMap_cons, List.append_assoc, scan_encodeChar, ih, Body.shift, List.length_append]
    congr 1
    omega

end Quoted

namespace Lexeme

theorem scan_name {cs rest : List Char} (h : Text.isName cs = true)
    (hr : ∀ c ∈ rest.head?, Text.isNamePart c = false) :
    scan (cs ++ rest) = token .identifier cs.length := by
  obtain ⟨c, hc, hs, hall⟩ := Text.isName_iff.1 h
  have htake := takeWhile_append_of_head hall hr
  obtain ⟨cs, rfl⟩ : ∃ ds, cs = c :: ds := by
    cases cs with
    | nil => cases hc
    | cons d ds => exact ⟨ds, by rw [Option.some.inj hc]⟩
  have hq : ¬ (c = '\'' ∨ c = '"') := fun hq =>
    hq.elim (Text.ne_of_isNameStart hs (by decide)) (Text.ne_of_isNameStart hs (by decide))
  rw [List.cons_append] at htake ⊢
  rw [scan, if_neg hq, if_neg (by simp [Text.isDigit_of_isNameStart hs]), if_pos hs, htake]

theorem scan_encode (s : String) (rest : List Char) :
    scan ((Quoted.encode s).toList ++ rest) = token .string (Quoted.encode s).toList.length := by
  have hs : (Quoted.encode s).toList = '\'' :: (s.toList.flatMap Quoted.encodeChar ++ ['\'']) := by
    simp [Quoted.encode]
  have hb := Quoted.scan_flatMap s.toList rest
  rw [hs, List.cons_append, List.append_assoc, List.singleton_append, scan, if_pos (.inl rfl),
    ofQuoted, List.drop_one, List.tail_cons, hb]
  simp

theorem scan_decimal {d : Decimal} (h : 0 ≤ d.coefficient) {rest : List Char}
    (hr : ∀ c ∈ rest.head?, c.isDigit = false ∧ c ≠ '.' ∧ Text.isNameStart c = false) :
    scan (d.toText.toList ++ rest) = token .number d.toText.toList.length := by
  have hn := Numeral.scan_toText hr h
  have hread : Decimal.read (String.ofList
      ((d.toText.toList ++ rest).take d.toText.toList.length)) = .ok d := by
    rw [List.take_left, String.ofList_toList, Decimal.read_toText h]
  obtain ⟨c, cs, hcs, hc⟩ := Decimal.exists_toText h
  have hq : ¬ (c = '\'' ∨ c = '"') := by
    intro hq
    rcases hq with rfl | rfl
    · exact absurd hc (by decide)
    · exact absurd hc (by decide)
  rw [hcs, List.cons_append] at hn hread ⊢
  rw [scan, if_neg hq, if_pos hc, ofNumeral, hn]
  simp only [hread]

end Lexeme

end RuleFormula
