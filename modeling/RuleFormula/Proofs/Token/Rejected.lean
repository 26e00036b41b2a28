import RuleFormula.Proofs.Token.Fault
import RuleFormula.Proofs.Token.Follow
import RuleFormula.Proofs.Token.Layout
import RuleFormula.Proofs.Token.Onward

set_option autoImplicit false

namespace RuleFormula

namespace Trivia

theorem split_rest_comment :
    (∀ cs, split (split cs).2 = ([], (split cs).2)) ∧
      ∀ cs, ∀ cut ∈ comment cs, split cut.2 = ([], cut.2) := by
  apply split.mutual_induct
  · rfl
  · intro cs cut h ih
    simpa [split, h, cons] using ih cut h
  · intro cs h _
    simp [split, h]
  · intro c cs hc hb ih
    rw [split.eq_3 _ _ hc, if_pos hb]
    exact ih
  · intro c cs hc hb
    rw [split.eq_3 _ _ hc, if_neg hb, split.eq_3 _ _ hc, if_neg hb]
  · simp [comment]
  · intro cs ih
    simpa [comment, cons] using ih
  · intro c cs hc ih cut h
    rw [comment.eq_3 _ _ hc] at h
    obtain ⟨d, hd, rfl⟩ := Option.map_eq_some_iff.1 h
    exact ih d hd

theorem split_rest (cs : List Char) : split (split cs).2 = ([], (split cs).2) :=
  split_rest_comment.1 cs

theorem gap_eq_nil {gap rest : List Char} (h : split (gap ++ rest) = ([], gap ++ rest))
    (g : Gap gap) : gap = [] := by
  cases g with
  | nil => rfl
  | @blank c cs hb _ =>
    have hc (ds : List Char) (he : c = '/') (_ : cs ++ rest = '*' :: ds) : False := by
      subst he
      exact absurd hb (by decide)
    rw [List.cons_append, split.eq_3 _ _ hc, if_pos hb] at h
    cases h
  | @comment body cs hb _ =>
    have hcomment := comment_append hb (cs ++ rest)
    simp [split, hcomment, cons] at h

end Trivia

namespace Layout

/-- Each lexeme is the longest one in front of the text behind it, with `more` behind the layout. -/
def Heads (more : List Char) : Layout → Prop
  | ending gap => Gap gap
  | piece gap kind lexeme rest =>
    Gap gap ∧ Lexeme.Matches kind lexeme (rest.text ++ more) ∧ rest.Heads more

theorem Heads.valid {more : List Char} {x : Layout} (h : x.Heads more) : x.Valid := by
  induction x with
  | ending => exact h
  | piece gap kind lexeme rest ih =>
    obtain ⟨hgap, hl, hrest⟩ := h
    exact ⟨hgap, hl.follow (.take rest.text more), ih hrest⟩

end Layout

namespace Cursor

/-- Single readings give these tokens, one by one, and lead from one cursor to another. -/
inductive Produces : Cursor → List Token → Cursor → Prop
  | none (c : Cursor) : Produces c [] c
  | token {c d e : Cursor} {t : Token} {ts : List Token} (h : c.next = (.ok t, d))
      (ht : t.kind ≠ .endOfInput) (hr : Produces d ts e) : Produces c (t :: ts) e

variable {c d : Cursor} {ts : List Token} {E : LexError}

theorem exists_produces_of_error (h : c.tokens = .error E) :
    ∃ ts d, c.Produces ts d ∧ d.next.1 = .error E := by
  induction hn : c.rest.length using Nat.strongRecOn generalizing c with
  | _ n ih =>
    cases hnext : c.next with
    | mk result d =>
      cases result with
      | error e =>
        rw [tokens_of_error hnext] at h
        cases h
        exact ⟨[], c, .none c, congrArg Prod.fst hnext⟩
      | ok t =>
        by_cases hk : t.kind = .endOfInput
        · rw [tokens_of_end hnext hk] at h
          cases h
        · rw [tokens_of_token hnext hk] at h
          cases hd : d.tokens with
          | ok us =>
            rw [hd] at h
            cases h
          | error e =>
            rw [hd] at h
            cases h
            have hlt := length_next_lt hnext hk
            obtain ⟨us, e, hus, he⟩ := ih d.rest.length (by omega) hd rfl
            exact ⟨t :: us, e, .token hnext hk hus, he⟩

theorem Produces.tokens (h : c.Produces ts d) : c.tokens = d.tokens.map (ts ++ ·) := by
  induction h with
  | none c => cases c.tokens <;> rfl
  | @token c d e t ts hnext hk _ ih =>
    rw [tokens_of_token hnext hk, ih]
    cases e.tokens <;> rfl

theorem Produces.tokenize_of_error {s : String} (h : (ofSource s).Produces ts c)
    (hnext : c.next = (.error E, d)) : tokenize s = .error E := by
  rw [tokenize, h.tokens, tokens_of_error hnext]
  rfl

theorem Produces.exists_of_token {s : String} {t : Token} {us : List Token}
    (h : (ofSource s).Produces ts c) (hnext : c.next = (.ok t, d)) (hk : t.kind ≠ .endOfInput)
    (hus : tokenize s = .ok us) : ∃ more, us = ts ++ t :: more := by
  rw [tokenize, h.tokens, tokens_of_token hnext hk] at hus
  cases hd : d.tokens with
  | error e =>
    rw [hd] at hus
    cases hus
  | ok more =>
    rw [hd] at hus
    cases hus
    exact ⟨more, rfl⟩

theorem exists_produces_of_mem {t : Token} (h : c.tokens = .ok ts) (ht : t ∈ ts) :
    ∃ us d, c.Produces us d ∧ d.next.1 = .ok t := by
  induction hn : c.rest.length using Nat.strongRecOn generalizing c ts with
  | _ n ih =>
    cases hnext : c.next with
    | mk result d =>
      cases result with
      | error e =>
        rw [tokens_of_error hnext] at h
        cases h
      | ok u =>
        by_cases hk : u.kind = .endOfInput
        · rw [tokens_of_end hnext hk] at h
          cases h
          obtain rfl := List.mem_singleton.1 ht
          exact ⟨[], c, .none c, congrArg Prod.fst hnext⟩
        · obtain ⟨us, hus, rfl⟩ := exists_of_tokens hnext hk h
          rcases List.mem_cons.1 ht with rfl | ht
          · exact ⟨[], c, .none c, congrArg Prod.fst hnext⟩
          · have hlt := length_next_lt hnext hk
            obtain ⟨vs, e, hvs, he⟩ := ih d.rest.length (by omega) hus ht rfl
            exact ⟨u :: vs, e, .token hnext hk hvs, he⟩

theorem exists_lexeme_of_next {t : Token} (h : c.next = (.ok t, d)) (hk : t.kind ≠ .endOfInput) :
    ∃ lexeme, c.skipTrivia.rest = lexeme ++ d.rest ∧ Lexeme.Matches t.kind lexeme d.rest ∧
      t = ⟨t.kind, String.ofList lexeme, c.skipTrivia.location⟩ ∧
      d.location = c.skipTrivia.location.advance lexeme := by
  obtain ⟨width, hs, ht, hd⟩ | ⟨-, ht, -⟩ := next_eq_ok (congrArg Prod.fst h)
  · obtain rfl : d = c.skipTrivia.skip width := by rwa [h] at hd
    have hcut : c.skipTrivia.rest.take width ++ (c.skipTrivia.skip width).rest =
        c.skipTrivia.rest :=
      List.take_append_drop ..
    refine ⟨_, hcut.symm, Lexeme.matches_of_scan ?_, ht, rfl⟩
    rw [hcut, List.length_take_of_le (Lexeme.width_le hs)]
    exact hs
  · rw [ht] at hk
    exact absurd rfl hk

theorem Produces.exists_layout (h : c.Produces ts d) : ∃ x : Layout,
    c.rest = x.text ++ d.skipTrivia.rest ∧ x.Heads d.skipTrivia.rest ∧
    d.skipTrivia.location = c.location.advance x.text ∧
    x.tokens c.location = ts ++ [.atEnd d.skipTrivia.location] := by
  induction h with
  | none c =>
    exact ⟨.ending (Trivia.split c.rest).1, (Trivia.append_split c.rest).symm,
      Trivia.gap_split c.rest, rfl, rfl⟩
  | @token c d e t ts hnext hk _ ih =>
    obtain ⟨x, hrest, hx, hplace, htokens⟩ := ih
    obtain ⟨lexeme, hcut, hl, ht, hd⟩ := exists_lexeme_of_next hnext hk
    have hsplit : (Trivia.split c.rest).1 ++ c.skipTrivia.rest = c.rest :=
      Trivia.append_split c.rest
    refine ⟨.piece (Trivia.split c.rest).1 t.kind lexeme x, ?_,
      ⟨Trivia.gap_split c.rest, ?_, hx⟩, ?_, ?_⟩
    · rw [Layout.text, List.append_assoc, List.append_assoc, ← hrest, ← hcut, hsplit]
    · rwa [← hrest]
    · rw [hplace, hd, Layout.text, Location.advance_append, Location.advance_append]
      rfl
    · rw [Layout.tokens, ht, List.cons_append, ← htokens, hd]
      rfl

theorem exists_faulty_of_next (h : c.next.1 = .error E) : ∃ place,
    Lexeme.Faulty c.skipTrivia.rest E.message place ∧
      E.location = c.skipTrivia.location.advance (c.skipTrivia.rest.take place) := by
  unfold next readLexeme at h
  split at h
  · cases h
  next cause place stop hs =>
    cases h
    exact ⟨place, Lexeme.faulty_of_scan (Trivia.split_rest c.rest) hs, rfl⟩
  · cases h

end Cursor

theorem Location.advance_take_locate {before rest : List Char} {place : Nat}
    (h : place ≤ rest.length) : (start.advance before).advance (rest.take place) =
      locate (before ++ rest) (before.length + place) := by
  have hle : before.length + place ≤ (before ++ rest).length := by
    rw [List.length_append]
    omega
  rw [locate_eq_advance hle, List.take_length_add_append, advance_append]

/-- A source that is not read as tokens has one fault at the first lexeme that cannot be read. The
source in front of it is read as the tokens that single readings gave before. -/
theorem tokenize_error {s : String} {E : LexError} (h : tokenize s = .error E) :
    ∃ ts c q place, (Cursor.ofSource s).Produces ts c ∧ c.next.1 = .error E ∧
      c.skipTrivia = ⟨s.toList.drop q, .locate s.toList q⟩ ∧
      (∀ gap rest, s.toList.drop q = gap ++ rest → Gap gap → gap = []) ∧
      tokenize (String.ofList (s.toList.take q)) = .ok (ts ++ [.atEnd (.locate s.toList q)]) ∧
      Lexeme.Faulty (s.toList.drop q) E.message place ∧
      E.location = .locate s.toList (q + place) ∧
      ∀ m p, Lexeme.Faulty (s.toList.drop q) m p → m = E.message ∧ p = place := by
  obtain ⟨ts, c, hts, hE⟩ := Cursor.exists_produces_of_error h
  obtain ⟨x, hrest, hx, hplace, htokens⟩ := hts.exists_layout
  obtain ⟨place, hfaulty, hlocation⟩ := Cursor.exists_faulty_of_next hE
  have hsplit := Trivia.split_rest c.rest
  -- The source in front of the fault is the text of the layout `x`, whose last gap is behind `ts`.
  change s.toList = _ at hrest
  change _ = Location.start.advance x.text at hplace
  change x.tokens .start = _ at htokens
  have hdrop : s.toList.drop x.text.length = c.skipTrivia.rest := by rw [hrest, List.drop_left]
  have htake : s.toList.take x.text.length = x.text := by rw [hrest, List.take_left]
  have hstart : Location.locate s.toList x.text.length = c.skipTrivia.location := by
    have hle : x.text.length ≤ s.toList.length := by
      rw [hrest, List.length_append]
      exact Nat.le_add_right ..
    rw [Location.locate_eq_advance hle, htake, hplace]
  refine ⟨ts, c, x.text.length, place, hts, hE, ?_, ?_, ?_, ?_, ?_, ?_⟩
  · rw [hdrop, hstart]
  · rintro gap rest hgap g
    change Trivia.split c.skipTrivia.rest = ([], c.skipTrivia.rest) at hsplit
    rw [← hdrop, hgap] at hsplit
    exact Trivia.gap_eq_nil hsplit g
  · rw [htake, hstart, ← htokens]
    exact Layout.tokenize_eq hx.valid (String.toList_ofList (l := x.text)).symm
  · rwa [hdrop]
  · rw [hlocation, hplace, hrest]
    exact Location.advance_take_locate (Nat.le_of_lt hfaulty.place_lt)
  · rw [hdrop]
    exact fun m p hm => hm.unique hfaulty

theorem tokenize_error_escape : ∃ ts q place,
    tokenize (String.ofList ("x/**/'a\\q".toList.take q)) =
      .ok (ts ++ [.atEnd (.locate "x/**/'a\\q".toList q)]) ∧
    Lexeme.Faulty ("x/**/'a\\q".toList.drop q) "Invalid escape sequence '\\q' in string" place ∧
    q + place = 7 := by
  have hfault : (match tokenize "x/**/'a\\q" with
      | .error E => some (E.message, E.location)
      | .ok _ => none) = some ("Invalid escape sequence '\\q' in string", ⟨7, 1, 8⟩) := by
    decide +kernel
  split at hfault
  next E hE =>
    obtain ⟨hmessage, hlocation⟩ := Prod.mk.inj (Option.some.inj hfault)
    obtain ⟨ts, c, q, place, -, -, -, -, hts, hfaulty, hplace, -⟩ := tokenize_error hE
    rw [hmessage] at hfaulty
    rw [hlocation] at hplace
    exact ⟨ts, q, place, hts, hfaulty, (congrArg Location.offset hplace).symm⟩
  next => cases hfault

end RuleFormula
