import RuleFormula.Proofs.Token.Gap
import RuleFormula.Proofs.Token.Lexical

set_option autoImplicit false

namespace RuleFormula

/-- A gap and a lexeme in turn, and the gap at the end. -/
inductive Layout where
  | ending (gap : List Char)
  | piece (gap : List Char) (kind : Token.Kind) (lexeme : List Char) (rest : Layout)

namespace Layout

def text : Layout → List Char
  | ending gap => gap
  | piece gap _ lexeme rest => gap ++ (lexeme ++ rest.text)

/-- Each lexeme is the longest one in front of the text behind it. -/
def Valid : Layout → Prop
  | ending gap => Gap gap
  | piece gap kind lexeme rest => Gap gap ∧ Lexeme.Matches kind lexeme rest.text ∧ rest.Valid

def spellings : Layout → List (Token.Kind × String)
  | ending _ => []
  | piece _ kind lexeme rest => (kind, String.ofList lexeme) :: rest.spellings

/-- How many characters stand in front of each lexeme, with `n` of them in front of the layout. -/
def places (n : Nat) : Layout → List Nat
  | ending _ => []
  | piece gap _ lexeme rest => (n + gap.length) :: rest.places (n + gap.length + lexeme.length)

def tokens (l : Location) : Layout → List Token
  | ending gap => [.atEnd (l.advance gap)]
  | piece gap kind lexeme rest =>
    ⟨kind, String.ofList lexeme, l.advance gap⟩ :: rest.tokens ((l.advance gap).advance lexeme)

theorem spelling_tokens (x : Layout) (l : Location) :
    (x.tokens l).map Token.spelling = x.spellings ++ [(.endOfInput, "")] := by
  induction x generalizing l with
  | ending gap => rfl
  | piece gap kind lexeme rest ih => simp [tokens, spellings, ih, Token.spelling]

theorem offset_tokens (x : Layout) (l : Location) :
    (x.tokens l).map (·.location.offset) = x.places l.offset ++ [l.offset + x.text.length] := by
  induction x generalizing l with
  | ending gap => simp [tokens, places, text, Token.atEnd, Location.offset_advance]
  | piece gap kind lexeme rest ih =>
    simp [tokens, places, text, ih, Location.offset_advance, Nat.add_assoc]

theorem text_prefix_of_mem (x : Layout) {l : Location} {before : List Char}
    (h : before.length = l.offset) {t : Token} (ht : t ∈ x.tokens l) :
    t.text.toList <+: (before ++ x.text).drop t.location.offset := by
  induction x generalizing l before with
  | ending gap =>
    obtain rfl := List.mem_singleton.1 ht
    exact List.nil_prefix
  | piece gap kind lexeme rest ih =>
    rcases List.mem_cons.1 ht with rfl | ht
    · have hd : (before ++ gap ++ (lexeme ++ rest.text)).drop (l.offset + gap.length) =
          lexeme ++ rest.text := by
        rw [← h, ← List.length_append, List.drop_left]
      simp only [text, Location.offset_advance, ← List.append_assoc before gap, hd,
        String.toList_ofList]
      exact List.prefix_append lexeme rest.text
    · have hlen : (before ++ gap ++ lexeme).length = ((l.advance gap).advance lexeme).offset := by
        simp [Location.offset_advance, h, Nat.add_assoc]
      simpa [text] using ih hlen ht

theorem tokens_eq (x : Layout) (h : x.Valid) (l : Location) :
    (⟨x.text, l⟩ : Cursor).tokens = .ok (x.tokens l) := by
  induction x generalizing l with
  | ending gap =>
    have hs : Trivia.split gap = (gap, []) := by
      have hgap : Trivia.split (gap ++ []) = (gap, []) := Trivia.split_append h rfl
      rwa [List.append_nil] at hgap
    have hn := @Cursor.next_of_end ⟨gap, l⟩ (by rw [hs])
    rw [text, Cursor.tokens_of_end hn rfl, hs]
    rfl
  | piece gap kind lexeme rest ih =>
    obtain ⟨hgap, hl, hrest⟩ := h
    have hscan := Lexeme.scan_of_matches hl
    have hs := Trivia.split_append hgap (Lexeme.split_of_scan hscan)
    have hn := @Cursor.next_of_scan ⟨gap ++ (lexeme ++ rest.text), l⟩ _ _ _ (by rw [hs]) hscan
    rw [text, Cursor.tokens_of_token hn (Lexeme.kind_ne_endOfInput hscan), ih hrest, hs]
    rfl

end Layout

theorem Reads.exists_layout {cs : List Char} {ts : List (Token.Kind × String)} (h : Reads cs ts) :
    ∃ x : Layout, x.Valid ∧ x.text = cs ∧ x.spellings = ts := by
  induction h with
  | @done cs h =>
    have happend := Trivia.append_split cs
    rw [h, List.append_nil] at happend
    exact ⟨.ending cs, happend ▸ Trivia.gap_split cs, rfl, rfl⟩
  | @token cs lexeme rest kind ts hs hl hr ih =>
    obtain ⟨x, hx, rfl, rfl⟩ := ih
    have happend := Trivia.append_split cs
    rw [hs] at happend
    exact ⟨.piece (Trivia.split cs).1 kind lexeme x,
      ⟨Trivia.gap_split cs, Lexeme.matches_of_scan hl, hx⟩, happend, rfl⟩

theorem Layout.tokenize_eq {x : Layout} (hx : x.Valid) {s : String} (hs : x.text = s.toList) :
    tokenize s = .ok (x.tokens .start) := by
  rw [tokenize, Cursor.ofSource, ← hs]
  exact x.tokens_eq hx .start

/-- A source is read as the lexemes of its layouts and the end of input, each at its place. -/
theorem tokenize_eq_ok_iff_layout (s : String) (ts : List (Token.Kind × String)) :
    ((∃ tokens, tokenize s = .ok tokens ∧
        tokens.map Token.spelling = ts ++ [(.endOfInput, "")]) ↔
      ∃ x : Layout, x.Valid ∧ x.text = s.toList ∧ x.spellings = ts) ∧
    ∀ (x : Layout) (tokens : List Token), x.Valid → x.text = s.toList → tokenize s = .ok tokens →
      tokens.map (·.location.offset) = x.places 0 ++ [s.length] ∧
      ∀ t ∈ tokens, t.text.toList <+: s.toList.drop t.location.offset := by
  refine ⟨⟨fun hread => ?_, fun hlayout => ?_⟩, fun x tokens hx hs ht => ?_⟩
  · obtain ⟨tokens, ht, hts⟩ := hread
    obtain ⟨body, ending, rfl, hr, -, -⟩ := Reads.of_tokens ht
    obtain ⟨x, hx, hs, hxs⟩ := hr.exists_layout
    refine ⟨x, hx, hs, ?_⟩
    rw [List.map_append, List.map_singleton] at hts
    rw [hxs, (List.append_inj' hts rfl).1]
  · obtain ⟨x, hx, hs, rfl⟩ := hlayout
    exact ⟨_, Layout.tokenize_eq hx hs, x.spelling_tokens .start⟩
  · obtain rfl := Except.ok.inj ((Layout.tokenize_eq hx hs).symm.trans ht)
    refine ⟨?_, fun t ht => ?_⟩
    · rw [x.offset_tokens, hs]
      simp [Location.start, String.length_toList]
    · have hp : t.text.toList <+: ([] ++ x.text).drop t.location.offset :=
        x.text_prefix_of_mem rfl ht
      rwa [List.nil_append, hs] at hp

theorem tokenize_slash_comment : ∃ tokens, tokenize "1//*/*/x" = .ok tokens ∧
    tokens.map Token.spelling =
      [(.number, "1"), (.slash, "/"), (.identifier, "x"), (.endOfInput, "")] ∧
    tokens.map (·.location.offset) = [0, 1, 7, 8] := by
  let x : Layout := .piece [] .number ['1'] <| .piece [] .slash ['/'] <|
    .piece ['/', '*', '/', '*', '/'] .identifier ['x'] <| .ending []
  have hnumber : Lexeme.Matches .number ['1'] ['/', '/', '*', '/', '*', '/', 'x'] :=
    .numeral (d := ⟨1, 0, by decide, by decide⟩) (.whole (by simp) (by simp)) rfl fun c hc => by
      cases hc
      decide +kernel
  have hslash : Lexeme.Matches .slash ['/'] ['/', '*', '/', '*', '/', 'x'] :=
    .symbol (by decide) (fun k => by cases k <;> decide) (by decide)
  have hcomment : Gap ['/', '*', '/', '*', '/'] := @Gap.comment ['/'] [] (by decide) .nil
  have hname : Lexeme.Matches .identifier ['x'] [] := .name (by decide +kernel) (by simp)
  have hx : x.Valid := ⟨.nil, hnumber, .nil, hslash, hcomment, hname, .nil⟩
  have h := tokenize_eq_ok_iff_layout "1//*/*/x" x.spellings
  obtain ⟨tokens, ht, hs⟩ := h.1.2 ⟨x, hx, rfl, rfl⟩
  exact ⟨tokens, ht, hs, (h.2 x tokens hx rfl ht).1⟩

end RuleFormula
