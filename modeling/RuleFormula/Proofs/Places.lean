import RuleFormula.Proofs.Grammar.Stream
import RuleFormula.Proofs.Token.Lexical
import RuleFormula.Proofs.Token.Places

set_option autoImplicit false

namespace RuleFormula

open Grammar

/-- What a token stands for can be told: a number is exact, and the words for true and false are
read as names. -/
structure Token.HasValue (t : Token) : Prop where
  number : t.kind = .number → ∃ d, Decimal.read t.text = .ok d
  boolean : t.kind ≠ .boolean

theorem Token.HasValue.of_matches {kind : Token.Kind} {cs rest : List Char}
    (h : Lexeme.Matches kind cs rest) (l : Location) :
    (⟨kind, String.ofList cs, l⟩ : Token).HasValue := by
  cases h with
  | name | quoted => exact ⟨by simp, by simp⟩
  | numeral _ hd _ => exact ⟨fun _ => ⟨_, hd⟩, by simp⟩
  | symbol h =>
    refine ⟨?_, ?_⟩
    · rintro rfl
      cases h
    · rintro rfl
      cases h

theorem Reads.hasValue {cs : List Char} {ts : List Token} (h : Reads cs (ts.map Token.spelling)) :
    ∀ t ∈ ts, t.HasValue := by
  generalize hts : ts.map Token.spelling = spellings at h
  induction h generalizing ts with
  | done =>
    rw [List.map_eq_nil_iff] at hts
    subst hts
    simp
  | token _ hl _ ih =>
    obtain ⟨t, us, rfl, ht, hus⟩ := List.map_eq_cons_iff.1 hts
    obtain ⟨kind, text, l⟩ := t
    obtain ⟨rfl, rfl⟩ := Prod.mk.inj ht
    intro u hu
    rcases List.mem_cons.1 hu with rfl | hu
    · exact .of_matches (Lexeme.matches_of_scan hl) l
    · exact ih hus u hu

theorem exists_stream_of_tokenize {s : String} {ts : List Token} (h : tokenize s = .ok ts) :
    ∃ stream, TokenStream.ofTokens ts = .ok stream ∧ ∀ t ∈ stream.body, t.HasValue := by
  obtain ⟨body, ending, rfl, hr, hne, he⟩ := Reads.of_tokens h
  exact ⟨⟨body, ending⟩, TokenStream.ofTokens_append he hne, hr.hasValue⟩

namespace TokenStream

variable {s : TokenStream}

theorem Ended.location_of_error (hs : s.Ended) {limit : Nat} {E : ParseError}
    (h : parseTokens limit s.tokens = .error E) : ∃ t ∈ s.tokens, E.location = some t.location := by
  rw [hs.parseTokens_eq] at h
  obtain ⟨fault, rest, hc, rfl⟩ := readFormula_eq_error_iff.1 h
  obtain ⟨used, hbody, -⟩ := exists_site hc
  exact ⟨_, List.mem_of_getElem? (getElem?_tokens hbody),
    explain_location limit fault rest s.ending⟩

theorem Ended.cause_of_error (hs : s.Ended) (hv : ∀ t ∈ s.body, t.HasValue) {limit : Nat}
    {E : ParseError} (h : parseTokens limit s.tokens = .error E) :
    (∀ text e, E.cause ≠ .invalidNumber text e) ∧ ∀ text, E.cause ≠ .invalidBoolean text := by
  rw [hs.parseTokens_eq] at h
  obtain ⟨fault, rest, hc, rfl⟩ := readFormula_eq_error_iff.1 h
  obtain ⟨used, hbody, fits⟩ := exists_site hc
  have mem {t : Token} (ht : t ∈ rest.head?) (hb : s.body = used ++ rest) : t.HasValue :=
    hv t (by rw [hb]; exact List.mem_append_right used (List.mem_of_mem_head? ht))
  cases fault with
  | invalidNumber text e =>
    obtain ⟨t, ht, hk, rfl, he⟩ := fits
    obtain ⟨d, hd⟩ := (mem ht hbody).number hk
    rw [he] at hd
    cases hd
  | invalidBoolean text =>
    obtain ⟨t, ht, hk, -⟩ := fits
    exact absurd hk (mem ht hbody).boolean
  | expected | trailing | tooDeep | keyword => simp [explain]

end TokenStream

/-- The places of the tokens, of the error that reading them ends with, of what single readings
give, and of the errors in the tokens under any limit. -/
inductive Reported (s : String) : Location → Prop
  | token {ts : List Token} {t : Token} (h : tokenize s = .ok ts) (ht : t ∈ ts) :
      Reported s t.location
  | lexError {e : LexError} (h : tokenize s = .error e) : Reported s e.location
  | nextToken {c : Cursor} {t : Token} (h : c.Reached s) (ht : c.next.1 = .ok t) :
      Reported s t.location
  | nextError {c : Cursor} {e : LexError} (h : c.Reached s) (he : c.next.1 = .error e) :
      Reported s e.location
  | parseError {ts : List Token} {limit : Nat} {e : ParseError} {l : Location}
      (h : tokenize s = .ok ts) (he : parseTokens limit ts = .error e) (hl : e.location = some l) :
      Reported s l

theorem parse_error_of_tokenize {s : String} {ts : List Token} (h : tokenize s = .ok ts)
    {limit : Nat} {e : ParseError} (he : parseTokens limit ts = .error e) :
    (∃ t ∈ ts, e.location = some t.location) ∧
      (∀ text fault, e.cause ≠ .invalidNumber text fault) ∧
      ∀ text, e.cause ≠ .invalidBoolean text := by
  obtain ⟨stream, hs, hv⟩ := exists_stream_of_tokenize h
  obtain ⟨rfl, hend⟩ := TokenStream.ofTokens_eq_ok_iff.1 hs
  exact ⟨hend.location_of_error he, hend.cause_of_error hv he⟩

theorem Reported.location_in {s : String} {l : Location} (h : Reported s l) : l.In s.toList := by
  obtain ⟨htokens, herror⟩ := (Cursor.ofSource_on s).tokens
  cases h with
  | token h ht => exact htokens _ h _ ht
  | lexError h => exact herror _ h
  | nextToken h ht => exact h.on.next.2.1 _ ht
  | nextError h he => exact h.on.next.2.2 _ he
  | parseError h he hl =>
    obtain ⟨⟨t, ht, hloc⟩, -⟩ := parse_error_of_tokenize h he
    obtain rfl := Option.some.inj (hl.symm.trans hloc)
    exact htokens _ h t ht

/-- All places that are reported are true places of the source; the tokens are a stream whose errors
are each at a token and never about its value; and the places are in the order of their lines and
columns. -/
theorem reported_places (s : String) :
    (∀ l, Reported s l → l.In s.toList) ∧
    (∀ ts, tokenize s = .ok ts → (∃ stream, TokenStream.ofTokens ts = .ok stream) ∧
      ∀ limit e, parseTokens limit ts = .error e → (∃ t ∈ ts, e.location = some t.location) ∧
        (∀ text fault, e.cause ≠ .invalidNumber text fault) ∧
        ∀ text, e.cause ≠ .invalidBoolean text) ∧
    ∀ a b, Reported s a → Reported s b → (a.offset < b.offset ↔ a.Precedes b) ∧
      (a.offset ≠ b.offset → ¬ (a.line = b.line ∧ a.column = b.column)) := by
  refine ⟨fun l h => h.location_in, fun ts h => ⟨?_, fun limit e => parse_error_of_tokenize h⟩,
    fun a b ha hb => ?_⟩
  · obtain ⟨stream, hs, -⟩ := exists_stream_of_tokenize h
    exact ⟨stream, hs⟩
  · have hab := Location.offset_lt_iff ha.location_in hb.location_in
    have hba := Location.offset_lt_iff hb.location_in ha.location_in
    refine ⟨hab, fun hne heq => ?_⟩
    unfold Location.Precedes at hab hba
    omega

end RuleFormula
