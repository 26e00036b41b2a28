import RuleFormula.Proofs.Token.Lexeme
import RuleFormula.Token.Cursor

/-! A source as the kinds and texts of its tokens. Places do not matter here: what a cursor reads
depends only on the characters in front of it. -/
set_option autoImplicit false

namespace RuleFormula

namespace Symbol

theorem spellings_apart : ∀ s ∈ spellings,
    (s.2 ≠ .identifier ∧ s.2 ≠ .number ∧ s.2 ≠ .endOfInput) ∧
      s.1.head?.all (fun c => !Text.isBlank c) = true := by
  decide

theorem exists_of_scan? {cs : List Char} {kind : Token.Kind} {width : Nat}
    (h : scan? cs = some (kind, width)) :
    ∃ s ∈ spellings, s.1.isPrefixOf cs = true ∧ s.2 = kind ∧ s.1.length = width := by
  obtain ⟨s, hs, he⟩ := Option.map_eq_some_iff.1 h
  have hp := List.find?_some hs
  cases he
  exact ⟨s, List.mem_of_find?_eq_some hs, hp, rfl, rfl⟩

end Symbol

theorem Quoted.Body.shift_eq_closed {b : Body} {k width : Nat} :
    b.shift k = .closed width ↔ ∃ w, b = .closed w ∧ w + k = width := by
  cases b <;> simp [shift]

theorem Quoted.width_le {quote : Char} {cs : List Char} {width : Nat}
    (h : scan quote cs = .closed width) : width ≤ cs.length := by
  fun_induction scan quote cs generalizing width with
  | case1 => cases h
  | case2 => cases h; simp
  | case3 => cases h
  | case4 e cs _ _ ih =>
    obtain ⟨w, hw, rfl⟩ := Body.shift_eq_closed.1 h
    have hle := ih hw
    simp only [List.length_cons]
    omega
  | case5 => cases h
  | case6 c cs _ _ ih =>
    obtain ⟨w, hw, rfl⟩ := Body.shift_eq_closed.1 h
    have hle := ih hw
    simp only [List.length_cons]
    omega

theorem Numeral.width_le {cs : List Char} {width : Nat} (h : scan cs = .ok width) :
    width ≤ cs.length := by
  have hw := congrArg List.length (List.takeWhile_append_dropWhile (p := Char.isDigit) (l := cs))
  unfold scan at h
  dsimp only at h
  split at h
  next rest hr =>
    have hp := congrArg List.length
      (List.takeWhile_append_dropWhile (p := Char.isDigit) (l := rest))
    split at h
    · cases h
    · split at h
      · cases h
      · rw [eq_of_bounded h]
        simp only [hr, List.length_append, List.length_cons] at hw hp ⊢
        omega
  next =>
    rw [eq_of_bounded h]
    simp only [List.length_append] at hw
    omega

namespace Lexeme

/-- The four sorts of tokens at the head of a text. -/
inductive TokenAt : List Char → Token.Kind → Nat → Prop
  | quoted {quote : Char} {cs : List Char} {width : Nat} (hq : quote = '\'' ∨ quote = '"')
      (h : Quoted.scan quote cs = .closed width) : TokenAt (quote :: cs) .string (width + 1)
  | numeral {c : Char} {cs : List Char} {width : Nat} {d : Decimal} (hc : c.isDigit = true)
      (h : Numeral.scan (c :: cs) = .ok width)
      (hd : Decimal.read (String.ofList ((c :: cs).take width)) = .ok d) :
      TokenAt (c :: cs) .number width
  | name {c : Char} {cs : List Char} (hc : Text.isNameStart c = true) :
      TokenAt (c :: cs) .identifier ((c :: cs).takeWhile Text.isNamePart).length
  | symbol {c : Char} {cs : List Char} {kind : Token.Kind} {width : Nat}
      (hc : ['/', '*'].isPrefixOf (c :: cs) = false)
      (h : Symbol.scan? (c :: cs) = some (kind, width)) : TokenAt (c :: cs) kind width

theorem tokenAt_of_scan {cs : List Char} {kind : Token.Kind} {width : Nat}
    (h : scan cs = token kind width) : TokenAt cs kind width := by
  cases cs with
  | nil => simp [scan] at h
  | cons c cs =>
    rw [scan] at h
    split at h
    next hq =>
      unfold ofQuoted at h
      split at h <;> cases h
      next w hw => exact .quoted hq hw
    split at h
    next hc =>
      unfold ofNumeral at h
      split at h
      · cases h
      next w hw =>
        dsimp only at h
        split at h <;> cases h
        next d hd => exact .numeral hc hw hd
    split at h
    next hc =>
      cases h
      exact .name hc
    · unfold ofSymbol at h
      split at h
      · cases h
      next hp =>
        split at h <;> cases h
        next hs => exact .symbol (Bool.eq_false_iff.2 hp) hs

theorem eq_nil_of_scan {cs : List Char} (h : scan cs = none) : cs = [] := by
  cases cs with
  | nil => rfl
  | cons c cs =>
    simp only [scan, ofQuoted, ofNumeral, ofSymbol] at h
    repeat' split at h
    all_goals cases h

theorem kind_ne_endOfInput {cs : List Char} {kind : Token.Kind} {width : Nat}
    (h : scan cs = token kind width) : kind ≠ .endOfInput := by
  cases tokenAt_of_scan h with
  | quoted => decide
  | numeral => decide
  | name => decide
  | symbol _ h =>
    obtain ⟨s, hs, -, rfl, -⟩ := Symbol.exists_of_scan? h
    exact (Symbol.spellings_apart s hs).1.2.2

theorem split_of_scan {cs : List Char} {kind : Token.Kind} {width : Nat}
    (h : scan cs = token kind width) : Trivia.split cs = ([], cs) := by
  cases tokenAt_of_scan h with
  | quoted hq _ =>
    rcases hq with rfl | rfl
    · exact Trivia.split_cons (by decide) (by decide)
    · exact Trivia.split_cons (by decide) (by decide)
  | numeral hc _ _ =>
    have hb := Text.isBlank_of_isNamePart (Text.isNamePart_of_isDigit hc)
    refine Trivia.split_cons hb fun he => ?_
    subst he
    exact absurd hc (by decide)
  | name hc =>
    have hb := Text.isBlank_of_isNamePart (Text.isNamePart_of_isNameStart hc)
    exact Trivia.split_cons hb (Text.ne_of_isNameStart hc (by decide))
  | symbol hc hs =>
    refine Trivia.split_eq_nil ?_ hc
    obtain ⟨s, hs, hp, -, -⟩ := Symbol.exists_of_scan? hs
    have hpos := Symbol.length_pos hs
    have hb := (Symbol.spellings_apart s hs).2
    intro c hc
    cases hc
    cases hw : s.1 with
    | nil => simp [hw] at hpos
    | cons d ds =>
      rw [hw] at hp hb
      simp only [List.isPrefixOf, Bool.and_eq_true, beq_iff_eq] at hp
      rw [← hp.1]
      simpa using hb

theorem width_le {cs : List Char} {kind : Token.Kind} {width : Nat}
    (h : scan cs = token kind width) : width ≤ cs.length := by
  cases tokenAt_of_scan h with
  | quoted _ hq =>
    have hw := Quoted.width_le hq
    rw [List.length_cons]
    omega
  | numeral _ hn _ => exact Numeral.width_le hn
  | name _ => exact (List.takeWhile_prefix _).length_le
  | symbol _ h =>
    obtain ⟨s, -, hp, -, rfl⟩ := Symbol.exists_of_scan? h
    exact (List.isPrefixOf_iff_prefix.1 hp).length_le

theorem isName_of_scan {cs : List Char} {width : Nat} (h : scan cs = token .identifier width) :
    Text.isName (cs.take width) = true := by
  cases tokenAt_of_scan h with
  | @name c cs hc =>
    have hp := Text.isNamePart_of_isNameStart hc
    rw [← List.prefix_iff_eq_take.1 (List.takeWhile_prefix _), Text.isName_iff]
    refine ⟨c, by simp [hp], hc, fun d hd => ?_⟩
    exact List.all_eq_true.1 List.all_takeWhile d hd
  | symbol _ hs =>
    obtain ⟨s, hs, -, hk, -⟩ := Symbol.exists_of_scan? hs
    exact absurd hk (Symbol.spellings_apart s hs).1.1

theorem isDigit_of_scan {cs : List Char} {width : Nat} (h : scan cs = token .number width) :
    ∃ c ∈ (cs.take width).head?, c.isDigit = true := by
  have hw := width_pos h
  cases tokenAt_of_scan h with
  | @numeral c cs _ _ hc _ _ =>
    obtain ⟨w, rfl⟩ : ∃ w, width = w + 1 := ⟨width - 1, by omega⟩
    exact ⟨c, rfl, hc⟩
  | symbol _ hs =>
    obtain ⟨s, hs, -, hk, -⟩ := Symbol.exists_of_scan? hs
    exact absurd hk (Symbol.spellings_apart s hs).1.2.1

end Lexeme

namespace Cursor

theorem next_of_end {c : Cursor} (h : (Trivia.split c.rest).2 = []) :
    c.next = (.ok (.atEnd (c.location.advance (Trivia.split c.rest).1)), c.skipTrivia) := by
  simp only [next, skipTrivia, readLexeme, h, Lexeme.scan]

theorem next_of_fault {c : Cursor} {cause : LexError.Cause} {place stop : Nat}
    (h : Lexeme.scan (Trivia.split c.rest).2 = .fault cause place stop) :
    c.next = (.error ⟨cause, (c.skipTrivia.skip place).location⟩, c.skipTrivia.skip stop) := by
  simp only [next, skipTrivia, readLexeme, h]

theorem next_of_scan {c : Cursor} {word rest : List Char} {kind : Token.Kind}
    (hs : (Trivia.split c.rest).2 = word ++ rest)
    (hl : Lexeme.scan (word ++ rest) = .token kind word.length) :
    c.next =
      (.ok ⟨kind, String.ofList word, c.location.advance (Trivia.split c.rest).1⟩,
        ⟨rest, (c.location.advance (Trivia.split c.rest).1).advance word⟩) := by
  simp only [next, skipTrivia, readLexeme, hs, hl, skip, List.take_left, List.drop_left]

theorem exists_of_tokens {c d : Cursor} {t : Token} {us : List Token} (h : c.next = (.ok t, d))
    (ht : t.kind ≠ .endOfInput) (hus : c.tokens = .ok us) :
    ∃ vs, d.tokens = .ok vs ∧ us = t :: vs := by
  rw [tokens_of_token h ht] at hus
  cases hd : d.tokens with
  | error e => simp [hd, Except.map] at hus
  | ok vs =>
    simp only [hd, Except.map, Except.ok.injEq] at hus
    exact ⟨vs, rfl, hus.symm⟩

end Cursor

def Token.spelling (t : Token) : Token.Kind × String := (t.kind, t.text)

/-- The characters are read as tokens of these kinds and texts, up to their end. -/
inductive Reads : List Char → List (Token.Kind × String) → Prop
  | done {cs : List Char} (h : (Trivia.split cs).2 = []) : Reads cs []
  | token {cs lexeme rest : List Char} {kind : Token.Kind} {ts : List (Token.Kind × String)}
      (hs : (Trivia.split cs).2 = lexeme ++ rest)
      (hl : Lexeme.scan (lexeme ++ rest) = .token kind lexeme.length) (hr : Reads rest ts) :
      Reads cs ((kind, String.ofList lexeme) :: ts)

namespace Reads

variable {cs : List Char} {ts : List (Token.Kind × String)}

theorem nil : Reads [] [] := .done rfl

theorem space (h : Reads cs ts) : Reads (' ' :: cs) ts := by
  cases h with
  | done h => exact .done (by rw [Trivia.split_space]; exact h)
  | token hs hl hr => exact .token (by rw [Trivia.split_space]; exact hs) hl hr

theorem lexeme {word rest : List Char} {kind : Token.Kind}
    (hl : Lexeme.scan (word ++ rest) = .token kind word.length) (hr : Reads rest ts) :
    Reads (word ++ rest) ((kind, String.ofList word) :: ts) :=
  .token (by rw [Lexeme.split_of_scan hl]) hl hr

theorem tokens (h : Reads cs ts) (l : Location) : ∃ body ending,
    (⟨cs, l⟩ : Cursor).tokens = .ok (body ++ [ending]) ∧ body.map Token.spelling = ts ∧
      (∀ t ∈ body, t.kind ≠ .endOfInput) ∧ ending.kind = .endOfInput := by
  induction h generalizing l with
  | @done cs h => exact ⟨[], _, Cursor.tokens_of_end (Cursor.next_of_end h) rfl, rfl, by simp, rfl⟩
  | @token cs lexeme rest kind ts hs hl _ ih =>
    have hn := @Cursor.next_of_scan ⟨cs, l⟩ _ _ _ hs hl
    have hk := Lexeme.kind_ne_endOfInput hl
    obtain ⟨body, ending, hts, hb, hne, he⟩ := ih ((l.advance (Trivia.split cs).1).advance lexeme)
    refine ⟨⟨kind, String.ofList lexeme, l.advance (Trivia.split cs).1⟩ :: body, ending,
      ?_, ?_, ?_, he⟩
    · rw [Cursor.tokens_of_token hn hk, hts]
      rfl
    · rw [List.map_cons, hb]
      rfl
    · simpa [hk] using hne

theorem of_tokens {c : Cursor} {us : List Token} (h : c.tokens = .ok us) : ∃ body ending,
    us = body ++ [ending] ∧ Reads c.rest (body.map Token.spelling) ∧
      (∀ t ∈ body, t.kind ≠ .endOfInput) ∧ ending.kind = .endOfInput := by
  induction hn : c.rest.length using Nat.strongRecOn generalizing c us with
  | _ n ih =>
    cases hs : Lexeme.scan (Trivia.split c.rest).2 with
    | none =>
      have hd := Lexeme.eq_nil_of_scan hs
      rw [Cursor.tokens_of_end (Cursor.next_of_end hd) rfl] at h
      cases h
      exact ⟨[], _, rfl, .done hd, by simp, rfl⟩
    | fault cause place stop =>
      rw [Cursor.tokens_of_error (Cursor.next_of_fault hs)] at h
      cases h
    | token kind width =>
      let cut := (Trivia.split c.rest).2
      have hcut : cut = cut.take width ++ cut.drop width := (List.take_append_drop width cut).symm
      have hlen : (cut.take width).length = width := List.length_take_of_le (Lexeme.width_le hs)
      have hl : Lexeme.scan (cut.take width ++ cut.drop width) =
          .token kind (cut.take width).length := by
        rw [← hcut, hlen]
        exact hs
      have hnext := Cursor.next_of_scan hcut hl
      have hk := Lexeme.kind_ne_endOfInput hs
      obtain ⟨vs, hvs, rfl⟩ := Cursor.exists_of_tokens hnext hk h
      have hlt := Cursor.length_next_lt hnext hk
      obtain ⟨body, ending, rfl, hr, hne, he⟩ := ih _ (by omega) hvs rfl
      refine ⟨_ :: body, ending, rfl, .token hcut hl hr, ?_, he⟩
      simpa [hk] using hne

end Reads

end RuleFormula
