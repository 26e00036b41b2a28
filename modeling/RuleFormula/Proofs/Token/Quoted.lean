import Mathlib.Data.List.Forall2
import RuleFormula.Expr.Render
import RuleFormula.Proofs.Token.Rejected

/-! Where a quoted string ends and what it stands for. The scanner and the decoder take the
characters between the quotes apart in the same units, so that the decoder finds nothing to
fall back for. -/
set_option autoImplicit false

namespace RuleFormula

namespace Quoted

/-- A unit between quotes, and the character that it stands for. -/
inductive Denotes (quote : Char) : List Char → Char → Prop
  | plain {c : Char} (hq : c ≠ quote) (hb : c ≠ '\\') : Denotes quote [c] c
  | newline : Denotes quote ['\\', 'n'] '\n'
  | tab : Denotes quote ['\\', 't'] '\t'
  | carriageReturn : Denotes quote ['\\', 'r'] '\r'
  | escaped {c : Char} (hc : c ∈ ['\'', '"', '\\']) : Denotes quote ['\\', c] c

def Writes (raw value : String) : Prop :=
  ∃ quote units, (quote = '\'' ∨ quote = '"') ∧ List.Forall₂ (Denotes quote) units value.toList ∧
    raw.toList = quote :: (units.flatten ++ [quote])

def decodeBody? : List Char → Option (List Char)
  | [] => some []
  | ['\\'] => none
  | '\\' :: c :: cs => (escape? c).bind fun d => (decodeBody? cs).map (d :: ·)
  | c :: cs => (decodeBody? cs).map (c :: ·)

def body? : List Char → Option (List Char)
  | [] => none
  | quote :: cs => if cs.getLast? = some quote then some cs.dropLast else none

/-- As `decode`, with no value for an unknown escape, for a backslash at the very end and for a
missing quote. -/
def decode? (raw : String) : Option String :=
  ((body? raw.toList).bind decodeBody?).map String.ofList

/-- The text is units between quotes, and decoding it gives what they stand for and
never falls back. -/
structure Faithful (raw : String) : Prop where
  writes : Writes raw (decode raw)
  strict : decode? raw = some (decode raw)

theorem decodeBody_of_decodeBody? {cs ds : List Char} (h : decodeBody? cs = some ds) :
    decodeBody cs = ds := by
  fun_induction decodeBody? cs generalizing ds with
  | case1 => cases h; rfl
  | case2 => cases h
  | case3 c cs ih =>
    obtain ⟨d, hd, hmap⟩ := Option.bind_eq_some_iff.1 h
    obtain ⟨es, hes, rfl⟩ := Option.map_eq_some_iff.1 hmap
    rw [decodeBody, hd, ih hes]
    rfl
  | case4 c cs hb hp ih =>
    obtain ⟨es, hes, rfl⟩ := Option.map_eq_some_iff.1 h
    rw [decodeBody, ih hes]
    exact hp

theorem decode_of_decode? {raw value : String} (h : decode? raw = some value) :
    decode raw = value := by
  obtain ⟨ds, hds, rfl⟩ := Option.map_eq_some_iff.1 h
  obtain ⟨cs, hcs, hbody⟩ := Option.bind_eq_some_iff.1 hds
  rw [decode, ← decodeBody_of_decodeBody? hbody]
  congr 2
  cases hraw : raw.toList with
  | nil => rw [hraw] at hcs; cases hcs
  | cons quote rest =>
    rw [hraw, body?] at hcs
    split at hcs <;> cases hcs
    rw [body, if_pos ‹_›]

example : decode? "'a\\q'" = none ∧ decode "'a\\q'" = "aq" := by decide

variable {quote : Char}

theorem decodeBody?_append {unit : List Char} {c : Char} (h : Denotes quote unit c)
    (cs : List Char) :
    decodeBody? (unit ++ cs) = (decodeBody? cs).map (c :: ·) := by
  cases h with
  | plain _ hb =>
    rw [List.singleton_append, decodeBody?]
    · exact fun hc _ => hb hc
    · exact fun d ds hc _ => hb hc
  | newline | tab | carriageReturn => rfl
  | escaped hc =>
    simp only [List.mem_cons, List.not_mem_nil, or_false] at hc
    rcases hc with rfl | rfl | rfl <;> rfl

theorem decodeBody?_flatten {units : List (List Char)} {cs : List Char}
    (h : List.Forall₂ (Denotes quote) units cs) : decodeBody? units.flatten = some cs := by
  induction h with
  | nil => rfl
  | cons hu _ ih =>
    rw [List.flatten_cons, decodeBody?_append hu, ih]
    rfl

theorem Writes.decode? {raw value : String} (h : Writes raw value) : decode? raw = some value := by
  obtain ⟨quote, units, -, hunits, hraw⟩ := h
  have hbody : body? raw.toList = some units.flatten := by simp [hraw, body?]
  rw [Quoted.decode?, hbody, Option.bind_some, decodeBody?_flatten hunits, Option.map_some,
    String.ofList_toList]

theorem Denotes.exists_of_escape {c : Char} (h : c ∈ ['n', 't', 'r', '\'', '"', '\\']) :
    ∃ d, Denotes quote ['\\', c] d := by
  simp only [List.mem_cons, List.not_mem_nil, or_false] at h
  rcases h with rfl | rfl | rfl | rfl | rfl | rfl
  · exact ⟨_, .newline⟩
  · exact ⟨_, .tab⟩
  · exact ⟨_, .carriageReturn⟩
  all_goals exact ⟨_, .escaped (by decide)⟩

theorem IsBody.exists_units {body : List Char} (h : IsBody quote body) :
    ∃ units cs, List.Forall₂ (Denotes quote) units cs ∧ units.flatten = body := by
  induction h with
  | nil => exact ⟨[], [], .nil, rfl⟩
  | plain hq hb _ ih =>
    obtain ⟨units, cs, hunits, rfl⟩ := ih
    exact ⟨_, _, .cons (.plain hq hb) hunits, rfl⟩
  | escape hc _ ih =>
    obtain ⟨units, cs, hunits, rfl⟩ := ih
    obtain ⟨d, hd⟩ := Denotes.exists_of_escape hc
    exact ⟨_, _, .cons hd hunits, rfl⟩

end Quoted

theorem Lexeme.Matches.writes {cs rest : List Char} (h : Matches .string cs rest) :
    ∃ value, Quoted.Writes (String.ofList cs) value := by
  cases h with
  | @quoted quote _ _ hq hbody =>
    obtain ⟨units, ds, hunits, rfl⟩ := hbody.exists_units
    exact ⟨String.ofList ds, quote, units, hq, by rwa [String.toList_ofList],
      String.toList_ofList⟩
  | symbol h => cases h

namespace Cursor

theorem faithful_of_next {c : Cursor} {t : Token} (h : c.next.1 = .ok t) (ht : t.kind = .string) :
    Quoted.Faithful t.text := by
  obtain ⟨lexeme, -, hl, heq, -⟩ := exists_lexeme_of_next (Prod.ext h rfl) (by simp [ht])
  rw [ht] at hl
  obtain ⟨value, hvalue⟩ := hl.writes
  have htext : t.text = String.ofList lexeme := congrArg Token.text heq
  rw [← htext] at hvalue
  have hdecode := Quoted.decode_of_decode? hvalue.decode?
  exact ⟨hdecode ▸ hvalue, hdecode ▸ hvalue.decode?⟩

/-- The text of a string token is units between quotes, and its value what they stand for, without
any fallback. A string as it is rendered is one token whatever follows, and has the string as its
value. -/
theorem string_token (c : Cursor) :
    (∀ t, c.next.1 = .ok t → t.kind = .string → Quoted.Faithful t.text) ∧
    (∀ ts, c.tokens = .ok ts → ∀ t ∈ ts, t.kind = .string → Quoted.Faithful t.text) ∧
    ∀ (v : String) (suffix : List Char), c.rest = (Literal.string v).render.toList ++ suffix →
      c.next = (.ok ⟨.string, (Literal.string v).render, c.location⟩,
        ⟨suffix, c.location.advance (Literal.string v).render.toList⟩) ∧
      Quoted.decode (Literal.string v).render = v := by
  refine ⟨fun t h ht => faithful_of_next h ht, fun ts hts t hmem ht => ?_, fun v suffix hc => ?_⟩
  · obtain ⟨_, d, -, hd⟩ := exists_produces_of_mem hts hmem
    exact faithful_of_next hd ht
  · have hs := Lexeme.scan_encode v suffix
    have hcut : Trivia.split c.rest = ([], (Quoted.encode v).toList ++ suffix) := by
      rw [hc, Literal.render, Lexeme.split_of_scan hs]
    have hnext := next_of_scan (congrArg Prod.snd hcut) hs
    rw [hcut, String.ofList_toList] at hnext
    exact ⟨hnext, Quoted.decode_encode v⟩

end Cursor

end RuleFormula
