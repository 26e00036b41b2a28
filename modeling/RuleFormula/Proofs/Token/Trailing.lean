import RuleFormula.Proofs.Spacing

/-! Blanks behind a source. They are part of the gap at its end, so that with them and without them
it is read as the same tokens, and only the end of input is in another place. -/
set_option autoImplicit false

namespace RuleFormula

/-- What ends with a character that is not in `w` ends in front of `w`. -/
theorem exists_append_of_getLast? {front rest cs w : List Char} {c : Char}
    (h : front ++ rest = cs ++ w) (hlast : front.getLast? = some c) (hc : c ∉ w) :
    ∃ more, cs = front ++ more ∧ rest = more ++ w := by
  rcases List.append_eq_append_iff.1 h with ⟨more, hcs, hrest⟩ | ⟨back, hfront, hw⟩
  · exact ⟨more, hcs, hrest⟩
  · cases List.eq_nil_or_concat back with
    | inl hback =>
      subst hback
      exact ⟨[], by simpa using hfront.symm, by simpa using hw.symm⟩
    | inr hback =>
      obtain ⟨back, d, rfl⟩ := hback
      obtain rfl : d = c := by simpa [hfront] using hlast
      exact absurd (by simp [hw]) hc

variable {gap cs w : List Char}

theorem Gap.append (g : Gap gap) (hw : ∀ c ∈ w, Text.isBlank c = true) : Gap (gap ++ w) := by
  induction g with
  | nil =>
    induction w with
    | nil => exact .nil
    | cons c w ih =>
      rw [List.forall_mem_cons] at hw
      exact .blank hw.1 (ih hw.2)
  | blank hb _ ih => exact .blank hb ih
  | comment hb _ ih => simpa using Gap.comment hb ih

theorem Gap.of_append (g : Gap (gap ++ w)) (hw : ∀ c ∈ w, Text.isBlank c = true) : Gap gap := by
  generalize htext : gap ++ w = text at g
  induction g generalizing gap with
  | nil =>
    rw [(List.append_eq_nil_iff.1 htext).1]
    exact .nil
  | @blank c cs hb _ ih =>
    cases gap with
    | nil => exact .nil
    | cons d gap =>
      obtain ⟨rfl, hrest⟩ := List.cons.inj htext
      exact .blank hb (ih hrest)
  | @comment body cs hb _ ih =>
    have hfront : (('/' :: '*' :: (body ++ ['*'])) ++ ['/']) ++ cs = gap ++ w := by simp [htext]
    have hslash : '/' ∉ w := fun hm => absurd (hw _ hm) (by decide)
    obtain ⟨more, rfl, rfl⟩ := exists_append_of_getLast? hfront List.getLast?_concat hslash
    have hcomment := Gap.comment hb (ih rfl)
    simpa using hcomment

theorem Lexeme.Matches.exists_getLast? {kind : Token.Kind} {rest : List Char}
    (h : Matches kind cs rest) : ∃ c, cs.getLast? = some c ∧ Text.isBlank c = false := by
  by_cases hk : kind = .string
  · subst hk
    cases h with
    | @quoted quote body _ hq _ =>
      refine ⟨quote, by rw [← List.cons_append, List.getLast?_concat], ?_⟩
      rcases hq with rfl | rfl <;> decide
    | symbol hs => cases hs
  · have hlast := List.getLast?_eq_some_getLast h.ne_nil
    exact ⟨_, hlast, h.isBlank_eq_false hk _ (List.mem_of_getLast? hlast)⟩

namespace Layout

/-- The layout with more text at its end. -/
def behind (w : List Char) : Layout → Layout
  | ending gap => ending (gap ++ w)
  | piece gap kind lexeme rest => piece gap kind lexeme (rest.behind w)

theorem text_behind (x : Layout) (w : List Char) : (x.behind w).text = x.text ++ w := by
  induction x with
  | ending gap => rfl
  | piece gap kind lexeme rest ih => simp [behind, text, ih]

theorem tokens_behind (x : Layout) (w : List Char) (l : Location) : ∃ body e e',
    x.tokens l = body ++ [.atEnd e] ∧ (x.behind w).tokens l = body ++ [.atEnd e'] := by
  induction x generalizing l with
  | ending gap => exact ⟨[], _, _, rfl, rfl⟩
  | piece gap kind lexeme rest ih =>
    obtain ⟨body, e, e', hrest, hbehind⟩ := ih ((l.advance gap).advance lexeme)
    exact ⟨_ :: body, e, e', by rw [tokens, hrest]; rfl, by rw [behind, tokens, hbehind]; rfl⟩

theorem spaced_behind {x : Layout} (hx : x.Valid) (hw : ∀ c ∈ w, Text.isBlank c = true) :
    x.Spaced (x.behind w) := by
  induction x with
  | ending gap => exact .ending (Gap.append hx hw)
  | piece gap kind lexeme rest ih => exact .piece hx.1 id (ih hx.2.2)

theorem exists_of_append {x : Layout} (hx : x.Valid) (h : x.text = cs ++ w)
    (hw : ∀ c ∈ w, Text.isBlank c = true) :
    ∃ y : Layout, y.Valid ∧ y.text = cs ∧ y.behind w = x := by
  induction x generalizing cs with
  | ending gap =>
    obtain rfl : gap = cs ++ w := h
    exact ⟨.ending cs, Gap.of_append hx hw, rfl, rfl⟩
  | piece gap kind lexeme rest ih =>
    obtain ⟨hgap, hl, hrest⟩ := hx
    obtain ⟨c, hlast, hc⟩ := hl.exists_getLast?
    have hfront : (gap ++ lexeme) ++ rest.text = cs ++ w := by simpa [text] using h
    have hout : c ∉ w := fun hm => by
      rw [hw c hm] at hc
      cases hc
    obtain ⟨more, rfl, hmore⟩ := exists_append_of_getLast? hfront (by simp [hlast]) hout
    obtain ⟨y, hy, rfl, rfl⟩ := ih hrest hmore
    rw [hmore] at hl
    exact ⟨.piece gap kind lexeme y, ⟨hgap, hl.follow (.take y.text w), hy⟩, by simp [text], rfl⟩

end Layout

theorem tokenize_append_blank (s : String) {w : String} (hw : ∀ c ∈ w.toList, Text.isBlank c = true)
    (body : List Token) : (∃ e, tokenize (s ++ w) = .ok (body ++ [.atEnd e])) ↔
      ∃ e, tokenize s = .ok (body ++ [.atEnd e]) := by
  constructor
  · rintro ⟨e, h⟩
    obtain ⟨x, hs, hts⟩ := Layout.exists_of_tokenize h
    have hx := Layout.valid_of_tokens hs (hts ▸ h)
    obtain ⟨y, hy, htext, rfl⟩ := Layout.exists_of_append hx (hs.trans String.toList_append) hw
    obtain ⟨body', e', e'', hyts, hxts⟩ := y.tokens_behind w.toList .start
    obtain ⟨rfl, -⟩ := List.append_inj' (hts.symm.trans hxts) rfl
    exact ⟨e', by rw [Layout.tokenize_eq hy htext, hyts]⟩
  · rintro ⟨e, h⟩
    obtain ⟨x, hs, hts⟩ := Layout.exists_of_tokenize h
    have hx := Layout.valid_of_tokens hs (hts ▸ h)
    have hbehind : (x.behind w.toList).text = (s ++ w).toList := by
      rw [x.text_behind, hs, String.toList_append]
    obtain ⟨body', e', e'', hxts, hts'⟩ := x.tokens_behind w.toList .start
    obtain ⟨rfl, -⟩ := List.append_inj' (hts.symm.trans hxts) rfl
    exact ⟨e'', by rw [Layout.tokenize_eq ((Layout.spaced_behind hx hw).valid hx) hbehind, hts']⟩

theorem parseFormula_eq_ok_iff_body {limit : Nat} {s : String} {e : Expr} :
    parseFormula limit s = .ok e ↔ ∃ body, (∃ l, tokenize s = .ok (body ++ [.atEnd l])) ∧
      ∀ l, parseTokens limit (body ++ [.atEnd l]) = .ok e := by
  rw [parseFormula_eq_ok_iff]
  constructor
  · rintro ⟨ts, hts, hp⟩
    obtain ⟨x, -, rfl⟩ := Layout.exists_of_tokenize hts
    obtain ⟨body, m, -, hbody, -⟩ := x.tokens_behind [] .start
    rw [hbody] at hts hp
    have hp := parseTokens_eq_ok_iff.1 hp
    exact ⟨body, ⟨m, hts⟩, fun l => parseTokens_eq_ok_iff.2 hp⟩
  · rintro ⟨body, ⟨l, hts⟩, hp⟩
    exact ⟨_, hts, hp l⟩

/-- With blanks behind it, a source is read as the same tree, with the same positions. -/
theorem parseFormula_append_blank (limit : Nat) (s : String) {w : String}
    (hw : ∀ c ∈ w.toList, Text.isBlank c = true) (e : Expr) :
    parseFormula limit (s ++ w) = .ok e ↔ parseFormula limit s = .ok e := by
  simp only [parseFormula_eq_ok_iff_body, tokenize_append_blank s hw]

end RuleFormula
