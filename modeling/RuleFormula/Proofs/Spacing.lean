import RuleFormula.Proofs.Formula
import RuleFormula.Proofs.Grammar.Placeless
import RuleFormula.Proofs.Token.Follow
import RuleFormula.Proofs.Token.Layout

set_option autoImplicit false

namespace RuleFormula

namespace Layout

/-- Other gaps behind a lexeme. A gap in front of the next lexeme may not be closed up, the last one
may. -/
inductive Spaced : Layout → Layout → Prop
  | ending {gap gap' : List Char} (h : Gap gap') : Spaced (.ending gap) (.ending gap')
  | piece {gap gap' lexeme : List Char} {kind : Token.Kind} {rest rest' : Layout} (h : Gap gap')
      (apart : gap ≠ [] → gap' ≠ []) (hr : Spaced rest rest') :
      Spaced (.piece gap kind lexeme rest) (.piece gap' kind lexeme rest')

/-- The same lexemes with other gaps. Nothing is in front of the first one, so that its gap may be
closed up as well. -/
inductive Respaced : Layout → Layout → Prop
  | ending {gap gap' : List Char} (h : Gap gap') : Respaced (.ending gap) (.ending gap')
  | piece {gap gap' lexeme : List Char} {kind : Token.Kind} {rest rest' : Layout} (h : Gap gap')
      (hr : Spaced rest rest') :
      Respaced (.piece gap kind lexeme rest) (.piece gap' kind lexeme rest')

variable {x y : Layout}

theorem Spaced.spellings_eq (h : Spaced x y) : y.spellings = x.spellings := by
  induction h with
  | ending => rfl
  | piece _ _ _ ih => simp only [spellings, ih]

theorem Respaced.spellings_eq (h : Respaced x y) : y.spellings = x.spellings := by
  cases h with
  | ending => rfl
  | piece _ hr => simp only [spellings, hr.spellings_eq]

theorem Spaced.follows (h : Spaced x y) (hx : x.Valid) : Lexeme.Follows x.text y.text := by
  cases h with
  | @ending gap gap' h =>
    by_cases hne : gap' = []
    · intro c hc
      rw [text, hne] at hc
      cases hc
    · have hf := h.follows hne gap []
      rwa [List.append_nil] at hf
  | @piece gap gap' lexeme kind rest rest' h apart hr =>
    by_cases hne : gap' = []
    · obtain rfl : gap = [] := Decidable.not_not.1 fun hgap => apart hgap hne
      subst hne
      obtain ⟨c, cs, rfl⟩ := List.exists_cons_of_ne_nil hx.2.1.ne_nil
      exact fun d hd => .inl hd
    · exact h.follows hne _ _

theorem Spaced.valid (h : Spaced x y) (hx : x.Valid) : y.Valid := by
  induction h with
  | ending h => exact h
  | piece h _ hr ih =>
    obtain ⟨-, hl, hrest⟩ := hx
    exact ⟨h, hl.follow (hr.follows hrest), ih hrest⟩

theorem Respaced.valid (h : Respaced x y) (hx : x.Valid) : y.Valid := by
  cases h with
  | ending h => exact h
  | piece h hr =>
    obtain ⟨-, hl, hrest⟩ := hx
    exact ⟨h, hl.follow (hr.follows hrest), hr.valid hrest⟩

theorem tokens_ne_nil (x : Layout) (l : Location) : x.tokens l ≠ [] := by
  cases x <;> simp [tokens]

theorem eq_of_tokens_eq {l : Location} (ht : x.tokens l = y.tokens l) (hs : x.text = y.text) :
    x = y := by
  induction x generalizing y l with
  | ending gap =>
    cases y with
    | ending gap' => exact congrArg ending hs
    | piece gap' kind lexeme rest =>
      have hne := rest.tokens_ne_nil ((l.advance gap').advance lexeme)
      simp only [tokens, List.cons.injEq] at ht
      exact absurd ht.2.symm hne
  | piece gap kind lexeme rest ih =>
    cases y with
    | ending gap' =>
      have hne := rest.tokens_ne_nil ((l.advance gap).advance lexeme)
      simp only [tokens, List.cons.injEq] at ht
      exact absurd ht.2 hne
    | piece gap' kind' lexeme' rest' =>
      simp only [tokens, List.cons.injEq, Token.mk.injEq, String.ofList_inj] at ht
      obtain ⟨⟨rfl, rfl, hplace⟩, hrest⟩ := ht
      have hlen : gap.length = gap'.length := by
        have ho := congrArg Location.offset hplace
        rw [Location.offset_advance, Location.offset_advance] at ho
        omega
      obtain ⟨rfl, htext⟩ := List.append_inj hs hlen
      rw [ih hrest (List.append_cancel_left htext)]

theorem valid_of_tokens {s : String} (hs : x.text = s.toList)
    (ht : tokenize s = .ok (x.tokens .start)) : x.Valid := by
  obtain ⟨body, ending, -, hr, -, -⟩ := Reads.of_tokens ht
  obtain ⟨z, hz, htext, -⟩ := hr.exists_layout
  have htokens := Except.ok.inj ((tokenize_eq hz htext).symm.trans ht)
  rwa [← eq_of_tokens_eq htokens (htext.trans hs.symm)]

end Layout

theorem exists_ended_of_tokenize {s : String} {ts : List Token} (h : tokenize s = .ok ts) :
    ∃ stream : TokenStream, stream.tokens = ts ∧ stream.Ended := by
  obtain ⟨body, ending, rfl, -, hne, he⟩ := Reads.of_tokens h
  exact ⟨⟨body, ending⟩, rfl, he, hne⟩

theorem parseFormula_of_tokenize {s : String} {ts : List Token} (h : tokenize s = .ok ts)
    (limit : Nat) : parseFormula limit s = (parseTokens limit ts).mapError .parse := by
  rw [parseFormula, h]
  rfl

namespace Layout

variable {x y : Layout} {s : String} {ts : List Token}

theorem exists_of_tokenize (h : tokenize s = .ok ts) :
    ∃ x : Layout, x.text = s.toList ∧ x.tokens .start = ts := by
  obtain ⟨body, ending, -, hr, -, -⟩ := Reads.of_tokens h
  obtain ⟨x, hx, hs, -⟩ := hr.exists_layout
  exact ⟨x, hs, Except.ok.inj ((tokenize_eq hx hs).symm.trans h)⟩

theorem Respaced.tokenize_text (h : x.Respaced y) (hx : x.Valid) :
    tokenize (String.ofList y.text) = .ok (y.tokens .start) ∧
      (y.tokens .start).map Token.spelling = (x.tokens .start).map Token.spelling := by
  refine ⟨tokenize_eq (h.valid hx) (String.toList_ofList (l := y.text)).symm, ?_⟩
  rw [x.spelling_tokens, y.spelling_tokens, h.spellings_eq]

end Layout

theorem parseFormula_of_spelling_eq {s s' : String} {ts ts' : List Token} (h : tokenize s = .ok ts)
    (h' : tokenize s' = .ok ts') (hspell : ts'.map Token.spelling = ts.map Token.spelling)
    (limit : Nat) :
    (∃ e e', parseFormula limit s = .ok e ∧ parseFormula limit s' = .ok e' ∧
        e.sameShape e' = true ∧ e.render = e'.render) ∨
      ∃ i, ∃ hi : i < ts.length, ∃ hi' : i < ts'.length, ∃ cause cause',
        parseFormula limit s = .error (.parse ⟨cause, some ts[i].location⟩) ∧
        parseFormula limit s' = .error (.parse ⟨cause', some ts'[i].location⟩) := by
  rw [parseFormula_of_tokenize h, parseFormula_of_tokenize h']
  obtain ⟨a, rfl, hends⟩ := exists_ended_of_tokenize h
  obtain ⟨b, rfl, hends'⟩ := exists_ended_of_tokenize h'
  have hbody : a.body.map Token.spelling = b.body.map Token.spelling := by
    simp only [TokenStream.tokens, List.map_append, List.map_singleton] at hspell
    exact (List.append_inj' hspell rfl).1.symm
  rcases hends.parseTokens_of_spelling_eq hends' hbody limit with hok | herror
  · obtain ⟨e, e', he, he', hsame⟩ := hok
    refine .inl ⟨e, e', ?_, ?_, Expr.sameShape_of_unplaced_eq hsame,
      Expr.render_of_unplaced_eq hsame⟩
    · rw [he]; rfl
    · rw [he']; rfl
  · obtain ⟨i, hi, hi', cause, cause', he, he'⟩ := herror
    refine .inr ⟨i, hi, hi', cause, cause', ?_, ?_⟩
    · rw [he]; rfl
    · rw [he']; rfl

/-- A source that is read as tokens is cut by them into lexemes with gaps around. With other gaps it
is read as tokens of the same kinds and texts, and under every limit as a tree that differs in
places only, or it fails at the same token. -/
theorem parseFormula_respaced {s : String} {ts : List Token} (h : tokenize s = .ok ts) :
    (∃ x : Layout, x.text = s.toList ∧ x.tokens .start = ts) ∧
    ∀ x y : Layout, x.text = s.toList → x.tokens .start = ts → x.Respaced y →
      x.Valid ∧ ∃ ts', tokenize (String.ofList y.text) = .ok ts' ∧
        ts'.map Token.spelling = ts.map Token.spelling ∧
        ∀ limit,
          (∃ e e', parseFormula limit s = .ok e ∧
            parseFormula limit (String.ofList y.text) = .ok e' ∧
            e.sameShape e' = true ∧ e.render = e'.render) ∨
          ∃ i, ∃ hi : i < ts.length, ∃ hi' : i < ts'.length, ∃ cause cause',
            parseFormula limit s = .error (.parse ⟨cause, some ts[i].location⟩) ∧
            parseFormula limit (String.ofList y.text) =
              .error (.parse ⟨cause', some ts'[i].location⟩) := by
  refine ⟨Layout.exists_of_tokenize h, ?_⟩
  rintro x y hs rfl hxy
  have hx := Layout.valid_of_tokens hs h
  obtain ⟨h', hspell⟩ := hxy.tokenize_text hx
  exact ⟨hx, _, h', hspell, parseFormula_of_spelling_eq h h' hspell⟩

theorem parseFormula_respaced_slash : ∃ e e', parseFormula 2 "1/x" = .ok e ∧
    parseFormula 2 "/**/1//*/*/x\n" = .ok e' ∧ e.sameShape e' = true ∧ e.render = e'.render := by
  let x : Layout := .piece [] .number ['1'] <| .piece [] .slash ['/'] <|
    .piece [] .identifier ['x'] <| .ending []
  let y : Layout := .piece ['/', '*', '*', '/'] .number ['1'] <| .piece [] .slash ['/'] <|
    .piece ['/', '*', '/', '*', '/'] .identifier ['x'] <| .ending ['\n']
  have hfront : Gap ['/', '*', '*', '/'] := @Gap.comment [] [] (by decide) .nil
  have hcomment : Gap ['/', '*', '/', '*', '/'] := @Gap.comment ['/'] [] (by decide) .nil
  have hline : Gap ['\n'] := .blank (by decide) .nil
  have hxy : x.Respaced y :=
    .piece hfront (.piece .nil id (.piece hcomment (by simp) (.ending hline)))
  have htokens : (tokenize "1/x").toOption.map id = some (x.tokens .start) := by decide +kernel
  obtain ⟨_, ht, rfl⟩ := exists_ok_of_map htokens
  obtain ⟨-, ts', -, -, hread⟩ := (parseFormula_respaced ht).2 x y rfl rfl hxy
  rcases hread 2 with hok | herror
  · exact hok
  · obtain ⟨i, hi, hi', cause, cause', he, -⟩ := herror
    have hsome : (parseFormula 2 "1/x").toOption.isSome = true := by decide +kernel
    rw [he] at hsome
    cases hsome

end RuleFormula
