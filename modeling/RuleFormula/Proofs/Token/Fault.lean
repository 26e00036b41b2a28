import RuleFormula.Proofs.Decimal.Exact
import RuleFormula.Proofs.Token.Lexical

/-! What is wrong with a text that starts with no lexeme. As in the lexical grammar, the faults and
their messages are told without the scanners, and a text has at most one of them. -/
set_option autoImplicit false

namespace RuleFormula

/-- What the digits that a text starts with run into. -/
inductive Numeral.RunsInto : List Char → String → Prop
  | noPlaces {ds rest : List Char} (hne : ds ≠ []) (hd : ∀ c ∈ ds, c.isDigit = true)
      (hr : ∀ c ∈ rest.head?, c.isDigit = false) :
      RunsInto (ds ++ '.' :: rest) "expected digits after decimal point"
  | secondPoint {ds ps rest : List Char} (hne : ds ≠ []) (hd : ∀ c ∈ ds, c.isDigit = true)
      (hp : ps ≠ []) (hpd : ∀ c ∈ ps, c.isDigit = true) :
      RunsInto (ds ++ '.' :: (ps ++ '.' :: rest)) "more than one decimal point"
  | stray {cs rest : List Char} {c : Char} (h : IsNumeral cs) (hc : Text.isNameStart c = true) :
      RunsInto (cs ++ c :: rest) "unexpected character after digits"

/-- A numeral with a whole part or with places that are too many for a decimal. -/
inductive Numeral.Exceeds : List Char → String → Prop
  | whole {ds rest : List Char} (hne : ds ≠ []) (hd : ∀ c ∈ ds, c.isDigit = true)
      (h : Decimal.bound ≤ Decimal.ofDigits ds) :
      Exceeds (ds ++ rest) "Invalid decimal: overflow from too many digits"
  | places {ds ps : List Char} (hne : ds ≠ []) (hd : ∀ c ∈ ds, c.isDigit = true)
      (hp : ∀ c ∈ ps, c.isDigit = true) (hw : Decimal.ofDigits ds < Decimal.bound)
      (h : Decimal.bound ≤ Decimal.ofDigits (ds ++ ps) ∨ 28 < ps.length) :
      Exceeds (ds ++ '.' :: ps) "Number has a high precision that can not be represented."

/-- The text starts with a fault of this message, which is reported so many characters behind its
start. -/
inductive Lexeme.Faulty : List Char → String → Nat → Prop
  | comment {cs : List Char} (h : ¬ ['*', '/'] <:+: cs) :
      Faulty ('/' :: '*' :: cs) "Unterminated comment" 0
  | escape {quote c : Char} {body cs : List Char} (hq : quote = '\'' ∨ quote = '"')
      (h : Quoted.IsBody quote body) (hc : c ∉ ['n', 't', 'r', '\'', '"', '\\']) :
      Faulty (quote :: (body ++ '\\' :: c :: cs))
        ("Invalid escape sequence '\\" ++ String.singleton c ++ "' in string") (body.length + 1)
  | unclosed {quote : Char} {body : List Char} (hq : quote = '\'' ∨ quote = '"')
      (h : Quoted.IsBody quote body) :
      Faulty (quote :: body) "Unterminated string: missing closing quote" 0
  | backslash {quote : Char} {body : List Char} (hq : quote = '\'' ∨ quote = '"')
      (h : Quoted.IsBody quote body) :
      Faulty (quote :: (body ++ ['\\'])) "Unterminated string: missing closing quote" 0
  | malformed {run rest : List Char} {reason : String} (h : Numeral.RunsInto (run ++ rest) reason)
      (hrun : ∀ c ∈ run, Text.isNamePart c = true ∨ c = '.')
      (hr : ∀ c ∈ rest.head?, Text.isNamePart c = false ∧ c ≠ '.') :
      Faulty (run ++ rest) ("Malformed number '" ++ String.ofList run ++ "': " ++ reason) 0
  | inexact {cs rest : List Char} {reason : String} (hn : IsNumeral cs)
      (hr : ∀ c ∈ rest.head?, c.isDigit = false ∧ c ≠ '.' ∧ Text.isNameStart c = false)
      (h : Numeral.Exceeds cs reason) :
      Faulty (cs ++ rest)
        ("Number '" ++ String.ofList cs ++ "' cannot be represented exactly: " ++ reason) 0
  | bar {cs : List Char} (h : ∀ c ∈ cs.head?, c ≠ '|') :
      Faulty ('|' :: cs) "Unexpected character '|' (did you mean '||'?)" 0
  | unexpected {c : Char} {cs : List Char} (hq : c ≠ '\'' ∧ c ≠ '"') (hd : c.isDigit = false)
      (hn : Text.isNameStart c = false) (hb : Text.isBlank c = false)
      (hs : ∀ k : Token.Kind, ∀ s ∈ k.symbols, s.head? ≠ some c) :
      Faulty (c :: cs) ("Unexpected character '" ++ String.singleton c ++ "'") 0

theorem Trivia.comment_eq_none_iff {cs : List Char} :
    comment cs = none ↔ ¬ ['*', '/'] <:+: cs := by
  induction cs with
  | nil => simp [comment]
  | cons c cs ih =>
    rw [List.infix_cons_iff, not_or]
    by_cases hclosed : ['*', '/'] <+: c :: cs
    · obtain ⟨rest, hrest⟩ := hclosed
      simp [← hrest, comment]
    · have hopen (ds : List Char) (hc : c = '*') (hds : cs = '/' :: ds) : False :=
        hclosed ⟨ds, by rw [hc, hds]; rfl⟩
      rw [comment.eq_3 _ _ hopen, Option.map_eq_none_iff, ih]
      exact ⟨fun h => ⟨hclosed, h⟩, And.right⟩

namespace Quoted

variable {quote : Char} {body cs : List Char}

theorem Body.shift_zero (b : Body) : b.shift 0 = b := by
  cases b <;> rfl

theorem Body.shift_shift (b : Body) (j k : Nat) : (b.shift j).shift k = b.shift (j + k) := by
  cases b <;> simp [shift, Nat.add_assoc]

theorem Body.shift_eq_badEscape {b : Body} {k place : Nat} {c : Char} :
    b.shift k = .badEscape place c ↔ ∃ p, b = .badEscape p c ∧ p + k = place := by
  cases b with
  | closed | unclosed => simp [shift]
  | badEscape p d => simp [shift, and_assoc, and_comm]

theorem Body.shift_eq_unclosed {b : Body} {k : Nat} : b.shift k = .unclosed ↔ b = .unclosed := by
  cases b <;> simp [shift]

theorem scan_escape {c : Char} (hq : quote ≠ '\\') (hc : c ∈ ['n', 't', 'r', '\'', '"', '\\'])
    (cs : List Char) : scan quote ('\\' :: c :: cs) = (scan quote cs).shift 2 := by
  rw [scan.eq_def]
  simp only [Ne.symm hq, if_false, if_true, isSome_escape?_iff.2 hc]

/-- The characters of a body do not end the string. -/
theorem scan_append (hq : quote ≠ '\\') (h : IsBody quote body) (cs : List Char) :
    scan quote (body ++ cs) = (scan quote cs).shift body.length := by
  induction h with
  | nil => exact (Body.shift_zero _).symm
  | plain hc hb _ ih => rw [List.cons_append, scan_plain hc hb, ih, Body.shift_shift]; rfl
  | escape hc _ ih =>
    rw [List.cons_append, List.cons_append, scan_escape hq hc, ih, Body.shift_shift]
    rfl

theorem exists_bad {place : Nat} {c : Char} (h : scan quote cs = .badEscape place c) :
    ∃ body rest, cs = body ++ '\\' :: c :: rest ∧ IsBody quote body ∧
      c ∉ ['n', 't', 'r', '\'', '"', '\\'] ∧ body.length = place := by
  fun_induction scan quote cs generalizing place with
  | case1 | case2 | case3 => cases h
  | case4 e cs he _ ih =>
    obtain ⟨p, hp, rfl⟩ := Body.shift_eq_badEscape.1 h
    obtain ⟨body, rest, rfl, hbody, hc, rfl⟩ := ih hp
    exact ⟨'\\' :: e :: body, rest, rfl, .escape (isSome_escape?_iff.1 he) hbody, hc, rfl⟩
  | case5 e cs he =>
    cases h
    exact ⟨[], cs, rfl, .nil, fun hc => he (isSome_escape?_iff.2 hc), rfl⟩
  | case6 c cs hc hb ih =>
    obtain ⟨p, hp, rfl⟩ := Body.shift_eq_badEscape.1 h
    obtain ⟨body, rest, rfl, hbody, hbad, rfl⟩ := ih hp
    exact ⟨c :: body, rest, rfl, .plain hc hb hbody, hbad, rfl⟩

theorem isBody_of_unclosed (h : scan quote cs = .unclosed) :
    IsBody quote cs ∨ ∃ body, cs = body ++ ['\\'] ∧ IsBody quote body := by
  fun_induction scan quote cs with
  | case1 => exact .inl .nil
  | case2 | case5 => cases h
  | case3 => exact .inr ⟨[], rfl, .nil⟩
  | case4 e cs he _ ih =>
    have hc := isSome_escape?_iff.1 he
    rcases ih (Body.shift_eq_unclosed.1 h) with hbody | ⟨body, rfl, hbody⟩
    · exact .inl (.escape hc hbody)
    · exact .inr ⟨'\\' :: e :: body, rfl, .escape hc hbody⟩
  | case6 c cs hc hb ih =>
    rcases ih (Body.shift_eq_unclosed.1 h) with hbody | ⟨body, rfl, hbody⟩
    · exact .inl (.plain hc hb hbody)
    · exact .inr ⟨c :: body, rfl, .plain hc hb hbody⟩

end Quoted

namespace Numeral

variable {cs rest : List Char}

theorem exists_of_bounded {width : Nat} {e : Malformed} (h : bounded width cs = .error e) :
    e = .strayCharacter ∧ ∃ c rest, cs = c :: rest ∧ Text.isNameStart c = true := by
  cases cs with
  | nil => cases h
  | cons c cs =>
    rw [bounded] at h
    split at h
    next hc =>
      cases h
      exact ⟨rfl, c, cs, rfl, hc⟩
    next => cases h

theorem scan_eq_bounded (h : IsNumeral cs) (hr : ∀ c ∈ rest.head?, c.isDigit = false ∧ c ≠ '.') :
    scan (cs ++ rest) = bounded cs.length rest := by
  have hdigit (c : Char) (hc : c ∈ rest.head?) := (hr c hc).1
  cases h with
  | whole _ hd =>
    simp only [scan, takeWhile_append_of_head hd hdigit, dropWhile_append_of_head hd hdigit]
    split
    · exact absurd rfl (hr '.' rfl).2
    · rfl
  | @places ds ps _ hd hp hpd =>
    have hpoint : ∀ c ∈ ('.' :: (ps ++ rest)).head?, c.isDigit = false := by simp
    have hlen : ps.length ≠ 0 := by simpa using hp
    rw [List.append_assoc, List.cons_append]
    simp only [scan, takeWhile_append_of_head hd hpoint, dropWhile_append_of_head hd hpoint,
      takeWhile_append_of_head hpd hdigit, dropWhile_append_of_head hpd hdigit, if_neg hlen]
    split
    · exact absurd rfl (hr '.' rfl).2
    · rw [List.length_append, List.length_cons]
      congr 1
      omega

theorem runsInto_of_scan {c : Char} {e : Malformed} (hc : c.isDigit = true)
    (h : scan (c :: cs) = .error e) : RunsInto (c :: cs) e.reason := by
  have hne : (c :: cs).takeWhile Char.isDigit ≠ [] := by simp [hc]
  have hsplit := List.takeWhile_append_dropWhile (p := Char.isDigit) (l := c :: cs)
  obtain ⟨hds, -⟩ := exists_run Char.isDigit (c :: cs)
  unfold scan at h
  dsimp only at h
  split at h
  next rest hrest =>
    have hsplit' := List.takeWhile_append_dropWhile (p := Char.isDigit) (l := rest)
    obtain ⟨hps, hafter⟩ := exists_run Char.isDigit rest
    rw [hrest] at hsplit
    rw [← hsplit]
    split at h
    next hplaces =>
      cases h
      rw [List.eq_nil_of_length_eq_zero hplaces, List.nil_append] at hsplit'
      rw [hsplit'] at hafter
      exact .noPlaces hne hds hafter
    next hplaces =>
      have hp : rest.takeWhile Char.isDigit ≠ [] := fun he => hplaces (by rw [he]; rfl)
      rw [← hsplit']
      split at h
      next more hmore =>
        cases h
        rw [hmore]
        exact .secondPoint hne hds hp hps
      next =>
        obtain ⟨rfl, d, more, hmore, hd⟩ := exists_of_bounded h
        have hstray := @RunsInto.stray _ more d (.places hne hds hp hps) hd
        rw [List.append_assoc, List.cons_append] at hstray
        rw [hmore]
        exact hstray
  next =>
    obtain ⟨rfl, d, more, hmore, hd⟩ := exists_of_bounded h
    rw [← hsplit, hmore]
    exact .stray (.whole hne hds) hd

theorem exists_scan_of_runsInto {reason : String} (h : RunsInto cs reason) :
    ∃ e, scan cs = .error e ∧ e.reason = reason := by
  cases h with
  | @noPlaces ds rest _ hd hr =>
    have hpoint : ∀ c ∈ ('.' :: rest).head?, c.isDigit = false := by simp
    have hnone : rest.takeWhile Char.isDigit = [] :=
      @takeWhile_append_of_head Char.isDigit [] rest (by simp) hr
    refine ⟨.noPlaces, ?_, rfl⟩
    simp [scan, dropWhile_append_of_head hd hpoint, hnone]
  | @secondPoint ds ps rest _ hd hp hpd =>
    have hpoint : ∀ c ∈ ('.' :: (ps ++ '.' :: rest)).head?, c.isDigit = false := by simp
    have hpoint' : ∀ c ∈ ('.' :: rest).head?, c.isDigit = false := by simp
    have hlen : ps.length ≠ 0 := by simpa using hp
    refine ⟨.secondPoint, ?_, rfl⟩
    simp only [scan, dropWhile_append_of_head hd hpoint, takeWhile_append_of_head hpd hpoint',
      dropWhile_append_of_head hpd hpoint', if_neg hlen]
  | @stray ds rest c h hc =>
    refine ⟨.strayCharacter, ?_, rfl⟩
    rw [scan_eq_bounded h, bounded, if_pos hc]
    intro d hd
    cases hd
    exact ⟨Text.isDigit_of_isNameStart hc, Text.ne_of_isNameStart hc (by decide +kernel)⟩

theorem exceeds_of_read {e : Decimal.ReadError} (h : IsNumeral cs)
    (he : Decimal.read (String.ofList cs) = .error e) : Exceeds cs e.message := by
  cases h with
  | whole hne hd =>
    by_cases hv : Decimal.ofDigits cs < Decimal.bound
    · rw [Decimal.read_whole hne hd hv] at he
      cases he
    · have hexceeds := @Exceeds.whole cs [] hne hd (Nat.le_of_not_lt hv)
      have hover := Decimal.read_overflow hne hd (Nat.le_of_not_lt hv) []
      rw [List.append_nil] at hexceeds hover
      rw [hover] at he
      cases he
      exact hexceeds
  | @places ds ps hne hd hp hpd =>
    by_cases hw : Decimal.ofDigits ds < Decimal.bound
    · by_cases hx : Decimal.bound ≤ Decimal.ofDigits (ds ++ ps) ∨ 28 < ps.length
      · rw [Decimal.read_tooPrecise hne hd hpd hw hx] at he
        cases he
        exact .places hne hd hpd hw hx
      · rw [not_or, Nat.not_le, Nat.not_lt] at hx
        rw [Decimal.read_places hne hd hpd hx.1 hx.2] at he
        cases he
    · rw [Decimal.read_overflow hne hd (Nat.le_of_not_lt hw)] at he
      cases he
      exact .whole hne hd (Nat.le_of_not_lt hw)

theorem exists_read_of_exceeds {reason : String} (h : Exceeds cs reason) :
    ∃ e, Decimal.read (String.ofList cs) = .error e ∧ e.message = reason := by
  cases h with
  | whole hne hd h => exact ⟨_, Decimal.read_overflow hne hd h _, rfl⟩
  | places hne hd hp hw h => exact ⟨_, Decimal.read_tooPrecise hne hd hp hw h, rfl⟩

end Numeral

namespace Symbol

theorem spellings_first : ∀ s ∈ spellings,
    s.1 = ['|', '|'] ∨ s.1.take 1 ∈ spellings.map Prod.fst := by
  decide

theorem scan?_eq_none_iff {cs : List Char} : scan? cs = none ↔ ∀ s ∈ spellings, ¬ s.1 <+: cs := by
  rw [scan?, Option.map_eq_none_iff, List.find?_eq_none]
  simp only [List.isPrefixOf_iff_prefix]

end Symbol

theorem LexError.Cause.message_unexpectedCharacter {c : Char} (hc : c ≠ '|') :
    (unexpectedCharacter c).message = "Unexpected character '" ++ String.singleton c ++ "'" := by
  unfold message
  split <;> simp_all

namespace Lexeme

variable {cs : List Char} {c : Char} {cause : LexError.Cause} {place stop : Nat}

theorem scan_of_quote (hq : c = '\'' ∨ c = '"') : scan (c :: cs) = ofQuoted c (c :: cs) := if_pos hq

theorem not_quote_of_isDigit (hd : c.isDigit = true) : ¬ (c = '\'' ∨ c = '"') := by
  intro hq
  rcases hq with rfl | rfl <;> exact absurd hd (by decide)

theorem scan_of_isDigit (hd : c.isDigit = true) : scan (c :: cs) = ofNumeral (c :: cs) := by
  rw [scan, if_neg (not_quote_of_isDigit hd), if_pos hd]

theorem scan_of_other (hq : ¬ (c = '\'' ∨ c = '"')) (hd : c.isDigit = false)
    (hn : Text.isNameStart c = false) : scan (c :: cs) = ofSymbol c cs := by
  rw [scan, if_neg hq, if_neg (by simp [hd]), if_neg (by simp [hn])]

theorem faulty_of_ofQuoted (hq : c = '\'' ∨ c = '"')
    (h : ofQuoted c (c :: cs) = .fault cause place stop) :
    Faulty (c :: cs) cause.message place := by
  unfold ofQuoted at h
  rw [List.drop_one, List.tail_cons] at h
  split at h
  · cases h
  next hbad =>
    cases h
    obtain ⟨body, rest, rfl, hbody, hc, rfl⟩ := Quoted.exists_bad hbad
    exact .escape hq hbody hc
  next hopen =>
    cases h
    rcases Quoted.isBody_of_unclosed hopen with hbody | ⟨body, rfl, hbody⟩
    · exact .unclosed hq hbody
    · exact .backslash hq hbody

theorem faulty_of_ofNumeral (hd : c.isDigit = true)
    (h : ofNumeral (c :: cs) = .fault cause place stop) : Faulty (c :: cs) cause.message place := by
  unfold ofNumeral at h
  split at h
  next e he =>
    cases h
    obtain ⟨hrun, hafter⟩ := exists_run (fun d => Text.isNamePart d || d == '.') (c :: cs)
    have hsplit := List.takeWhile_append_dropWhile (p := fun d => Text.isNamePart d || d == '.')
      (l := c :: cs)
    have hbroken := Numeral.runsInto_of_scan hd he
    rw [← hsplit] at hbroken
    have hfault := Faulty.malformed hbroken (fun d hd => by simpa using hrun d hd)
      (fun d hd => by simpa using hafter d hd)
    rwa [hsplit] at hfault
  next width hwidth =>
    obtain ⟨ds, rest, hsplit, rfl, hn, hr⟩ := Numeral.exists_isNumeral hd hwidth
    rw [hsplit, List.take_left] at h
    dsimp only at h
    split at h
    next e he =>
      cases h
      rw [hsplit]
      exact .inexact hn hr (Numeral.exceeds_of_read hn he)
    · cases h

theorem faulty_of_ofSymbol (hq : ¬ (c = '\'' ∨ c = '"')) (hd : c.isDigit = false)
    (hn : Text.isNameStart c = false) (hs : Trivia.split (c :: cs) = ([], c :: cs))
    (h : ofSymbol c cs = .fault cause place stop) : Faulty (c :: cs) cause.message place := by
  unfold ofSymbol at h
  split at h
  next hcomment =>
    cases h
    obtain ⟨ds, hds⟩ := List.isPrefixOf_iff_prefix.1 hcomment
    obtain ⟨rfl, rfl⟩ := List.cons.inj hds
    refine .comment (Trivia.comment_eq_none_iff.1 ?_)
    cases hclosed : Trivia.comment ds with
    | none => exact hclosed
    | some cut => simp [Trivia.split, hclosed, Trivia.cons] at hs
  next hcomment =>
    split at h
    · cases h
    next hnone =>
      cases h
      rw [Symbol.scan?_eq_none_iff] at hnone
      have hmiss (s : List Char) (hmem : s ∈ Symbol.spellings.map Prod.fst) : ¬ s <+: c :: cs := by
        obtain ⟨t, ht, rfl⟩ := List.mem_map.1 hmem
        exact hnone t ht
      by_cases hbar : c = '|'
      · subst hbar
        refine .bar fun d hd hdc => ?_
        subst hdc
        obtain ⟨rest, rfl⟩ := List.head?_eq_some_iff.1 hd
        exact hmiss ['|', '|'] (by decide) ⟨rest, rfl⟩
      · rw [LexError.Cause.message_unexpectedCharacter hbar]
        refine .unexpected (not_or.1 hq) hd hn ?_ fun k s hk hhead => ?_
        · cases hb : Text.isBlank c with
          | false => rfl
          | true =>
            have hopen (ds : List Char) (hc : c = '/') (_ : cs = '*' :: ds) : False := by
              subst hc
              exact absurd hb (by decide)
            rw [Trivia.split.eq_3 _ _ hopen, if_pos hb] at hs
            cases hs
        · obtain ⟨ds, rfl⟩ := List.head?_eq_some_iff.1 hhead
          rcases Symbol.spellings_first _ (Symbol.mem_spellings_iff.2 hk) with hbars | hfirst
          · exact hbar (List.cons.inj hbars).1
          · exact hmiss _ hfirst ⟨cs, rfl⟩

/-- Whatever is found to be wrong where no trivia are left is a fault of the text. -/
theorem faulty_of_scan (hs : Trivia.split cs = ([], cs)) (h : scan cs = .fault cause place stop) :
    Faulty cs cause.message place := by
  cases cs with
  | nil => cases h
  | cons c cs =>
    by_cases hq : c = '\'' ∨ c = '"'
    · rw [scan_of_quote hq] at h
      exact faulty_of_ofQuoted hq h
    by_cases hd : c.isDigit = true
    · rw [scan_of_isDigit hd] at h
      exact faulty_of_ofNumeral hd h
    by_cases hn : Text.isNameStart c = true
    · rw [scan, if_neg hq, if_neg hd, if_pos hn] at h
      cases h
    · rw [Bool.not_eq_true] at hd hn
      rw [scan_of_other hq hd hn] at h
      exact faulty_of_ofSymbol hq hd hn hs h

theorem exists_digit_of_append {ds rest : List Char} (hne : ds ≠ [])
    (hd : ∀ c ∈ ds, c.isDigit = true) : ∃ c cs, ds ++ rest = c :: cs ∧ c.isDigit = true := by
  obtain ⟨c, ds, rfl⟩ := List.exists_cons_of_ne_nil hne
  exact ⟨c, ds ++ rest, rfl, hd c (.head _)⟩

theorem head_of_runsInto {reason : String} (h : Numeral.RunsInto cs reason) :
    ∃ c ds, cs = c :: ds ∧ c.isDigit = true := by
  cases h with
  | noPlaces hne hd hr => exact exists_digit_of_append hne hd
  | secondPoint hne hd hp hpd => exact exists_digit_of_append hne hd
  | stray h hc =>
    obtain ⟨c, ds, rfl, hd⟩ := h.head
    exact ⟨c, _, rfl, hd⟩

theorem ne_backslash_of_quote (hq : c = '\'' ∨ c = '"') : c ≠ '\\' := by
  rcases hq with rfl | rfl <;> decide

theorem scan_unclosed {body rest : List Char} (hq : c = '\'' ∨ c = '"') (h : Quoted.IsBody c body)
    (hr : Quoted.scan c rest = .unclosed) : scan (c :: (body ++ rest)) =
      fault .unterminatedString 0 (c :: (body ++ rest)).length := by
  rw [scan_of_quote hq, ofQuoted, List.drop_one, List.tail_cons,
    Quoted.scan_append (ne_backslash_of_quote hq) h, hr]
  rfl

theorem scan_badEscape {body rest : List Char} {d : Char} (hq : c = '\'' ∨ c = '"')
    (h : Quoted.IsBody c body) (hd : d ∉ ['n', 't', 'r', '\'', '"', '\\']) :
    scan (c :: (body ++ '\\' :: d :: rest)) =
      fault (.invalidEscape d) (body.length + 1) (body.length + 2) := by
  have hbackslash := ne_backslash_of_quote hq
  have hbad : Quoted.scan c ('\\' :: d :: rest) = .badEscape 0 d := by
    rw [Quoted.scan.eq_def]
    simp only [Ne.symm hbackslash, if_false, if_true,
      Bool.eq_false_iff.2 (mt Quoted.isSome_escape?_iff.1 hd)]
    rfl
  rw [scan_of_quote hq, ofQuoted, List.drop_one, List.tail_cons,
    Quoted.scan_append hbackslash h, hbad]
  simp [Quoted.Body.shift]

theorem scan_bar (h : ∀ d ∈ cs.head?, d ≠ '|') :
    scan ('|' :: cs) = fault (.unexpectedCharacter '|') 0 0 := by
  have hnone : Symbol.scan? ('|' :: cs) = Option.none := by
    rw [Symbol.scan?_eq_none_iff]
    cases cs with
    | nil => decide
    | cons d cs => simp [Symbol.spellings, h d rfl, eq_comm]
  rw [scan_of_other (by decide) (by decide) (by decide +kernel), ofSymbol, hnone]
  simp [List.isPrefixOf]

theorem scan_unexpected (hq : ¬ (c = '\'' ∨ c = '"')) (hd : c.isDigit = false)
    (hn : Text.isNameStart c = false) (hs : ∀ k : Token.Kind, ∀ s ∈ k.symbols, s.head? ≠ some c) :
    scan (c :: cs) = fault (.unexpectedCharacter c) 0 0 := by
  have hmiss (s : List Char × Token.Kind) (hmem : s ∈ Symbol.spellings) : ¬ s.1 <+: c :: cs := by
    rintro ⟨rest, hrest⟩
    obtain ⟨d, ds, hcons⟩ := List.exists_cons_of_length_pos (Symbol.length_pos hmem)
    rw [hcons] at hrest
    exact hs s.2 s.1 (Symbol.mem_spellings_iff.1 hmem)
      (by rw [hcons]; exact congrArg some (List.cons.inj hrest).1)
  have hslash : ¬ ['/', '*'].isPrefixOf (c :: cs) = true := by
    intro hp
    obtain ⟨rest, hrest⟩ := List.isPrefixOf_iff_prefix.1 hp
    exact hmiss (['/'], .slash) (by decide) ⟨'*' :: rest, hrest⟩
  rw [scan_of_other hq hd hn, ofSymbol, if_neg hslash, Symbol.scan?_eq_none_iff.2 hmiss]

/-- A fault of the text is what is found to be wrong with it. -/
theorem exists_scan_of_faulty {message : String} (h : Faulty cs message place) :
    ∃ cause stop, scan cs = .fault cause place stop ∧ cause.message = message := by
  cases h with
  | comment => exact ⟨_, _, rfl, rfl⟩
  | escape hq h hc => exact ⟨_, _, scan_badEscape hq h hc, rfl⟩
  | @unclosed quote body hq h =>
    have hs : scan (quote :: (body ++ [])) = _ := scan_unclosed hq h rfl
    rw [List.append_nil] at hs
    exact ⟨_, _, hs, rfl⟩
  | backslash hq h =>
    refine ⟨_, _, scan_unclosed hq h ?_, rfl⟩
    rw [Quoted.scan.eq_def]
    simp [(ne_backslash_of_quote hq).symm]
  | @malformed run rest reason h hrun hr =>
    obtain ⟨e, he, rfl⟩ := Numeral.exists_scan_of_runsInto h
    have htake : Numeral.run (run ++ rest) = run :=
      takeWhile_append_of_head (fun d hd => by simpa using hrun d hd)
        (fun d hd => by simpa using hr d hd)
    obtain ⟨c, ds, hcs, hd⟩ := head_of_runsInto h
    refine ⟨.malformedNumber (String.ofList run) e, run.length, ?_, rfl⟩
    rw [hcs] at he htake ⊢
    rw [scan_of_isDigit hd, ofNumeral, he, htake]
  | @inexact ds rest reason hn hr h =>
    obtain ⟨e, he, rfl⟩ := Numeral.exists_read_of_exceeds h
    have hwidth := Numeral.scan_isNumeral hn hr
    have htake : (ds ++ rest).take ds.length = ds := List.take_left
    obtain ⟨c, more, rfl, hd⟩ := hn.head
    refine ⟨.inexactNumber (String.ofList (c :: more)) e, (c :: more).length, ?_, rfl⟩
    rw [List.cons_append] at hwidth htake ⊢
    rw [scan_of_isDigit hd, ofNumeral, hwidth]
    simp only [htake, he]
  | bar h => exact ⟨_, _, scan_bar h, rfl⟩
  | unexpected hq hd hn hb hs =>
    refine ⟨_, _, scan_unexpected (not_or.2 hq) hd hn hs,
      LexError.Cause.message_unexpectedCharacter ?_⟩
    rintro rfl
    exact hs .or ['|', '|'] (by decide) rfl

theorem Faulty.place_lt {message : String} (h : Faulty cs message place) : place < cs.length := by
  cases h with
  | comment | unclosed | backslash | bar | unexpected => exact Nat.succ_pos _
  | escape =>
    simp only [List.length_cons, List.length_append]
    omega
  | malformed h =>
    obtain ⟨c, ds, hcs, -⟩ := head_of_runsInto h
    rw [hcs]
    exact Nat.succ_pos _
  | inexact hn =>
    obtain ⟨c, ds, rfl, -⟩ := hn.head
    exact Nat.succ_pos _

theorem Faulty.unique {m m' : String} {p p' : Nat} (h : Faulty cs m p) (h' : Faulty cs m' p') :
    m = m' ∧ p = p' := by
  obtain ⟨cause, stop, hs, rfl⟩ := exists_scan_of_faulty h
  obtain ⟨cause', stop', hs', rfl⟩ := exists_scan_of_faulty h'
  rw [hs] at hs'
  cases hs'
  exact ⟨rfl, rfl⟩

end Lexeme

end RuleFormula
