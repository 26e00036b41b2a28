import RuleFormula.Proofs.Token.Reads

/-! The lexical grammar: which characters are a lexeme of which kind, in front of which others.
Nothing in its definition refers to the scanners or to their table of symbols. -/
set_option autoImplicit false

namespace RuleFormula

/-- The spellings of operators and punctuation. -/
def Token.Kind.symbols : Token.Kind → List (List Char)
  | plus => [['+']]
  | minus => [['-']]
  | star => [['*']]
  | slash => [['/']]
  | caret => [['^']]
  | percent => [['%']]
  | leftParen => [['(']]
  | rightParen => [[')']]
  | comma => [[',']]
  | dot => [['.']]
  | fieldMarker => [['$']]
  | equals => [['='], ['=', '=']]
  | not => [['!']]
  | notEquals => [['!', '='], ['<', '>']]
  | less => [['<']]
  | lessEqual => [['<', '=']]
  | greater => [['>']]
  | greaterEqual => [['>', '=']]
  | ampersand => [['&']]
  | and => [['&', '&']]
  | or => [['|', '|']]
  | _ => []

/-- The characters between two quotes. -/
inductive Quoted.IsBody (quote : Char) : List Char → Prop
  | nil : IsBody quote []
  | plain {c : Char} {cs : List Char} (hq : c ≠ quote) (hb : c ≠ '\\') (h : IsBody quote cs) :
      IsBody quote (c :: cs)
  | escape {c : Char} {cs : List Char} (hc : c ∈ ['n', 't', 'r', '\'', '"', '\\'])
      (h : IsBody quote cs) : IsBody quote ('\\' :: c :: cs)

/-- ASCII digits, maybe with a point between two of them. -/
inductive IsNumeral : List Char → Prop
  | whole {ds : List Char} (hne : ds ≠ []) (hd : ∀ c ∈ ds, c.isDigit = true) : IsNumeral ds
  | places {ds ps : List Char} (hne : ds ≠ []) (hd : ∀ c ∈ ds, c.isDigit = true) (hp : ps ≠ [])
      (hpd : ∀ c ∈ ps, c.isDigit = true) : IsNumeral (ds ++ '.' :: ps)

/-- The characters are a lexeme of a kind, and the longest one in front of `rest`. -/
inductive Lexeme.Matches : Token.Kind → List Char → List Char → Prop
  | name {cs rest : List Char} (h : Text.isName cs = true)
      (hr : ∀ c ∈ rest.head?, Text.isNamePart c = false) : Matches .identifier cs rest
  | numeral {cs rest : List Char} {d : Decimal} (h : IsNumeral cs)
      (hd : Decimal.read (String.ofList cs) = .ok d)
      (hr : ∀ c ∈ rest.head?, c.isDigit = false ∧ c ≠ '.' ∧ Text.isNameStart c = false) :
      Matches .number cs rest
  | quoted {quote : Char} {body rest : List Char} (hq : quote = '\'' ∨ quote = '"')
      (h : Quoted.IsBody quote body) : Matches .string (quote :: (body ++ [quote])) rest
  | symbol {kind : Token.Kind} {cs rest : List Char} (h : cs ∈ kind.symbols)
      (longest : ∀ k : Token.Kind, ∀ s ∈ k.symbols, s <+: cs ++ rest → s.length ≤ cs.length)
      (hc : ¬ ['/', '*'] <+: cs ++ rest) : Matches kind cs rest

namespace Symbol

theorem mem_symbols_of_spellings : ∀ s ∈ spellings, s.1 ∈ s.2.symbols := by decide

theorem mem_spellings_iff {s : List Char} {kind : Token.Kind} :
    (s, kind) ∈ spellings ↔ s ∈ kind.symbols := by
  constructor
  · intro h
    exact mem_symbols_of_spellings _ h
  · intro h
    have hall : ∀ s ∈ kind.symbols, (s, kind) ∈ spellings := by cases kind <;> decide
    exact hall s h

theorem spellings_pairwise : spellings.Pairwise fun a b => b.1.length ≤ a.1.length := by decide

theorem spellings_functional : ∀ a ∈ spellings, ∀ b ∈ spellings, a.1 = b.1 → a = b := by
  decide +kernel

theorem length_le_of_find? {cs : List Char} {s t : List Char × Token.Kind}
    (h : spellings.find? (fun s => s.1.isPrefixOf cs) = some s) (ht : t ∈ spellings)
    (hp : t.1 <+: cs) : t.1.length ≤ s.1.length := by
  obtain ⟨-, front, back, hl, hfront⟩ := List.find?_eq_some_iff_append.1 h
  have hpair := spellings_pairwise
  rw [hl] at ht hpair
  rcases List.mem_append.1 ht with ht | ht
  · have hno := hfront t ht
    simp [List.isPrefixOf_iff_prefix.2 hp] at hno
  · rcases List.mem_cons.1 ht with rfl | ht
    · exact Nat.le_refl _
    · exact (List.pairwise_cons.1 (List.pairwise_append.1 hpair).2.1).1 t ht

/-- The search finds the longest spelling at the head. -/
theorem scan?_append_iff {cs rest : List Char} {kind : Token.Kind} :
    scan? (cs ++ rest) = some (kind, cs.length) ↔ cs ∈ kind.symbols ∧
      ∀ k : Token.Kind, ∀ s ∈ k.symbols, s <+: cs ++ rest → s.length ≤ cs.length := by
  have hprefix : cs <+: cs ++ rest := List.prefix_append cs rest
  constructor
  · intro h
    obtain ⟨s, hf, he⟩ := Option.map_eq_some_iff.1 h
    obtain ⟨rfl, hlen⟩ := Prod.mk.inj he
    have hs : s.1 <+: cs ++ rest := by simpa [List.isPrefixOf_iff_prefix] using List.find?_some hf
    have hcs : s.1 = cs :=
      (List.prefix_of_prefix_length_le hs hprefix (by omega)).eq_of_length hlen
    refine ⟨hcs ▸ mem_spellings_iff.1 (List.mem_of_find?_eq_some hf), fun k t ht hp => ?_⟩
    exact hlen ▸ length_le_of_find? hf (mem_spellings_iff.2 ht) hp
  · intro h
    obtain ⟨hcs, longest⟩ := h
    have hmem := mem_spellings_iff.2 hcs
    have hp : cs.isPrefixOf (cs ++ rest) = true := List.isPrefixOf_iff_prefix.2 hprefix
    cases hf : spellings.find? (fun s => s.1.isPrefixOf (cs ++ rest)) with
    | none => exact absurd hp (by simpa using List.find?_eq_none.1 hf _ hmem)
    | some s =>
      have hs : s.1 <+: cs ++ rest := by simpa [List.isPrefixOf_iff_prefix] using List.find?_some hf
      have hmem' := List.mem_of_find?_eq_some hf
      have hle : cs.length ≤ s.1.length := length_le_of_find? hf hmem hprefix
      have hge := longest s.2 s.1 (mem_spellings_iff.1 hmem') hs
      have heq : s.1 = cs :=
        (List.prefix_of_prefix_length_le hs hprefix hge).eq_of_length (by omega)
      obtain rfl := spellings_functional s hmem' (cs, kind) hmem heq
      simp [scan?, hf]

theorem spellings_visible : ∀ s ∈ spellings, s.1.all (fun c => !Text.isBlank c) = true := by
  decide

theorem spellings_head : ∀ s ∈ spellings, s.1.head?.all fun c =>
    c ≠ '\'' ∧ c ≠ '"' ∧ c.isDigit = false ∧ Text.isNameStart c = false := by
  decide +kernel

end Symbol

namespace Quoted

theorem isSome_escape?_iff {c : Char} :
    (escape? c).isSome = true ↔ c ∈ ['n', 't', 'r', '\'', '"', '\\'] := by
  unfold escape?
  split <;> simp_all

theorem scan_body {quote : Char} {body : List Char} (hq : quote ≠ '\\') (h : IsBody quote body)
    (rest : List Char) : scan quote (body ++ quote :: rest) = .closed (body.length + 1) := by
  induction h with
  | nil => exact scan_quote quote rest
  | @plain c cs hc hb h ih =>
    rw [List.cons_append, scan_plain hc hb, ih]
    rfl
  | @escape c cs hc h ih =>
    rw [List.cons_append, List.cons_append, scan.eq_def]
    simp only [Ne.symm hq, if_false, if_true, isSome_escape?_iff.2 hc, ih]
    rfl

theorem exists_body {quote : Char} {cs : List Char} {width : Nat}
    (h : scan quote cs = .closed width) :
    ∃ body rest, cs = body ++ quote :: rest ∧ IsBody quote body ∧ body.length + 1 = width := by
  fun_induction scan quote cs generalizing width with
  | case1 => cases h
  | case2 => cases h; exact ⟨[], _, rfl, .nil, rfl⟩
  | case3 => cases h
  | case4 e cs he _ ih =>
    obtain ⟨w, hw, rfl⟩ := Body.shift_eq_closed.1 h
    obtain ⟨body, rest, rfl, hbody, rfl⟩ := ih hw
    exact ⟨'\\' :: e :: body, rest, rfl, .escape (isSome_escape?_iff.1 he) hbody, rfl⟩
  | case5 => cases h
  | case6 c cs hc hb ih =>
    obtain ⟨w, hw, rfl⟩ := Body.shift_eq_closed.1 h
    obtain ⟨body, rest, rfl, hbody, rfl⟩ := ih hw
    exact ⟨c :: body, rest, rfl, .plain hc hb hbody, rfl⟩

end Quoted

theorem exists_run (p : Char → Bool) (cs : List Char) :
    (∀ c ∈ cs.takeWhile p, p c = true) ∧ (∀ c ∈ (cs.dropWhile p).head?, p c = false) := by
  refine ⟨fun c hc => List.all_eq_true.1 List.all_takeWhile c hc, fun c hc => ?_⟩
  have h := List.head?_dropWhile_not p cs
  rw [hc] at h
  simpa using h

namespace Numeral

theorem not_isNameStart_of_bounded {width w : Nat} {cs : List Char} (h : bounded width cs = .ok w) :
    ∀ c ∈ cs.head?, Text.isNameStart c = false := by
  intro c hc
  cases cs with
  | nil => cases hc
  | cons d cs =>
    cases hc
    simp only [bounded] at h
    split at h
    · cases h
    · next hn => simpa using hn

theorem scan_isNumeral {cs rest : List Char} (h : IsNumeral cs)
    (hr : ∀ c ∈ rest.head?, c.isDigit = false ∧ c ≠ '.' ∧ Text.isNameStart c = false) :
    scan (cs ++ rest) = .ok cs.length := by
  cases h with
  | whole _ hd => exact scan_whole hd hr
  | @places ds ps _ hd hp hpd =>
    rw [List.append_assoc, List.cons_append, scan_places hpd hr hd hp, List.length_append,
      List.length_cons, Nat.add_assoc, Nat.add_comm 1]

theorem ne_of_not_cons {d : Char} {cs : List Char} (h : ∀ rest, cs = d :: rest → False) :
    ∀ c ∈ cs.head?, c ≠ d := by
  intro c hc he
  subst he
  obtain ⟨rest, hcs⟩ := List.head?_eq_some_iff.1 hc
  exact h rest hcs

theorem exists_isNumeral {c : Char} {cs : List Char} {width : Nat} (hc : c.isDigit = true)
    (h : scan (c :: cs) = .ok width) : ∃ ds rest, c :: cs = ds ++ rest ∧ ds.length = width ∧
      IsNumeral ds ∧
      ∀ d ∈ rest.head?, d.isDigit = false ∧ d ≠ '.' ∧ Text.isNameStart d = false := by
  have hne : (c :: cs).takeWhile Char.isDigit ≠ [] := by simp [hc]
  have hsplit := List.takeWhile_append_dropWhile (p := Char.isDigit) (l := c :: cs)
  obtain ⟨hds, hafter⟩ := exists_run Char.isDigit (c :: cs)
  unfold scan at h
  dsimp only at h
  split at h
  next rest hrest =>
    have hsplit' := List.takeWhile_append_dropWhile (p := Char.isDigit) (l := rest)
    obtain ⟨hps, hafter'⟩ := exists_run Char.isDigit rest
    split at h
    · cases h
    next hplaces =>
      split at h
      · cases h
      next hpoint =>
        have hp : rest.takeWhile Char.isDigit ≠ [] := fun he => hplaces (by rw [he]; rfl)
        refine ⟨_, rest.dropWhile Char.isDigit, ?_, ?_, .places hne hds hp hps, ?_⟩
        · rw [List.append_assoc, List.cons_append, hsplit', ← hrest, hsplit]
        · rw [eq_of_bounded h, List.length_append, List.length_cons]
          omega
        · intro d hd
          exact ⟨hafter' d hd, ne_of_not_cons hpoint d hd, not_isNameStart_of_bounded h d hd⟩
  next hpoint =>
    refine ⟨_, (c :: cs).dropWhile Char.isDigit, hsplit.symm, (eq_of_bounded h).symm,
      .whole hne hds, ?_⟩
    intro d hd
    exact ⟨hafter d hd, ne_of_not_cons hpoint d hd, not_isNameStart_of_bounded h d hd⟩

end Numeral

theorem IsNumeral.head {cs : List Char} (h : IsNumeral cs) :
    ∃ c ds, cs = c :: ds ∧ c.isDigit = true := by
  cases h with
  | whole hne hd | places hne hd =>
    obtain ⟨c, ds, rfl⟩ := List.exists_cons_of_ne_nil hne
    exact ⟨c, _, rfl, hd c (.head _)⟩

namespace Lexeme

variable {cs rest : List Char} {kind : Token.Kind}

theorem matches_of_scan (h : scan (cs ++ rest) = .token kind cs.length) : Matches kind cs rest := by
  generalize htext : cs ++ rest = text at h
  generalize hwidth : cs.length = width at h
  have split_eq {ds more : List Char} (ht : cs ++ rest = ds ++ more) (hl : ds.length = cs.length) :
      ds = cs ∧ more = rest := by
    obtain ⟨h₁, h₂⟩ := List.append_inj ht hl.symm
    exact ⟨h₁.symm, h₂.symm⟩
  cases tokenAt_of_scan h with
  | @quoted quote ds w hq hs =>
    obtain ⟨body, more, rfl, hbody, rfl⟩ := Quoted.exists_body hs
    obtain ⟨rfl, rfl⟩ := @split_eq (quote :: (body ++ [quote])) more (by simp [htext])
      (by simp [hwidth])
    exact .quoted hq hbody
  | @numeral c ds _ d hc hs hd =>
    obtain ⟨ns, more, hsplit, hlen, hn, hr⟩ := Numeral.exists_isNumeral hc hs
    obtain ⟨rfl, rfl⟩ := split_eq (htext.trans hsplit) (hlen.trans hwidth.symm)
    rw [← htext, ← hwidth, List.take_left] at hd
    exact .numeral hn hd hr
  | @name c ds hc =>
    obtain ⟨hrun, hr⟩ := exists_run Text.isNamePart (c :: ds)
    have hsplit := List.takeWhile_append_dropWhile (p := Text.isNamePart) (l := c :: ds)
    obtain ⟨hcs, rfl⟩ := split_eq (htext.trans hsplit.symm) hwidth.symm
    refine .name ?_ hr
    have hp := Text.isNamePart_of_isNameStart hc
    rw [← hcs, Text.isName_iff]
    exact ⟨c, by simp [hp], hc, hrun⟩
  | symbol hc hs =>
    rw [← htext] at hc hs
    rw [← hwidth] at hs
    obtain ⟨hmem, longest⟩ := Symbol.scan?_append_iff.1 hs
    refine .symbol hmem longest fun hp => ?_
    rw [List.isPrefixOf_iff_prefix.2 hp] at hc
    cases hc

theorem scan_of_matches (h : Matches kind cs rest) : scan (cs ++ rest) = .token kind cs.length := by
  cases h with
  | name h hr => exact scan_name h hr
  | @numeral _ _ d h hd hr =>
    have hs := Numeral.scan_isNumeral h hr
    obtain ⟨c, ds, rfl, hc⟩ := h.head
    have hq : ¬ (c = '\'' ∨ c = '"') := by
      intro hq
      rcases hq with rfl | rfl <;> exact absurd hc (by decide)
    rw [List.cons_append] at hs ⊢
    rw [scan, if_neg hq, if_pos hc, ofNumeral, hs]
    simp only [List.length_cons, ← List.cons_append]
    rw [← List.length_cons (a := c), List.take_left, hd]
  | @quoted quote body _ hq h =>
    have hs := Quoted.scan_body (by rcases hq with rfl | rfl <;> decide) h rest
    rw [List.cons_append, List.append_assoc, List.singleton_append, scan, if_pos hq, ofQuoted,
      List.drop_one, List.tail_cons, hs]
    simp
  | symbol h longest hc =>
    have hs := Symbol.scan?_append_iff.2 ⟨h, longest⟩
    have hmem := Symbol.mem_spellings_iff.2 h
    have hpos := Symbol.length_pos hmem
    have hhead := Symbol.spellings_head _ hmem
    cases cs with
    | nil => cases hpos
    | cons c cs =>
      obtain ⟨hsingle, hdouble, hdigit, hname⟩ := of_decide_eq_true hhead
      have hcomment : ['/', '*'].isPrefixOf (c :: (cs ++ rest)) = false := by
        rw [Bool.eq_false_iff]
        exact fun hp => hc (List.isPrefixOf_iff_prefix.1 hp)
      rw [List.cons_append] at hs ⊢
      simp [scan, hsingle, hdouble, hdigit, hname, ofSymbol, hcomment, hs]

theorem Matches.isBlank_eq_false (h : Matches kind cs rest) (hk : kind ≠ .string) :
    ∀ c ∈ cs, Text.isBlank c = false := by
  have digits {ds : List Char} (hd : ∀ c ∈ ds, c.isDigit = true) :
      ∀ c ∈ ds, Text.isBlank c = false := fun c hc =>
    Text.isBlank_of_isNamePart (Text.isNamePart_of_isDigit (hd c hc))
  cases h with
  | name hn _ =>
    obtain ⟨-, -, -, hparts⟩ := Text.isName_iff.1 hn
    exact fun c hc => Text.isBlank_of_isNamePart (hparts c hc)
  | numeral hn _ _ =>
    cases hn with
    | whole _ hd => exact digits hd
    | places _ hd _ hpd =>
      rw [List.forall_mem_append, List.forall_mem_cons]
      exact ⟨digits hd, by decide, digits hpd⟩
  | quoted => exact absurd rfl hk
  | symbol hs _ _ =>
    have hvisible := Symbol.spellings_visible _ (Symbol.mem_spellings_iff.2 hs)
    simpa using hvisible

end Lexeme

end RuleFormula
