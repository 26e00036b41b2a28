import RuleFormula.Proofs.Token.Gap
import RuleFormula.Proofs.Token.Lexical

/-! What may stand behind a lexeme. Of the text behind it only the first character matters, and a
gap or the end never goes on with it. -/
set_option autoImplicit false

namespace RuleFormula

namespace Symbol

theorem spellings_tail : ∀ s ∈ ['/', '*'] :: spellings.map Prod.fst,
    s.length ≤ 2 ∧ s.tail.all (fun c => !Text.isBlank c && c != '/') = true := by
  decide

theorem eq_append_of_prefix {s cs rest : List Char} (hs : s.length ≤ 2) (hcs : cs ≠ [])
    (hp : s <+: cs ++ rest) (hl : cs.length < s.length) : ∃ c ∈ rest.head?, s = cs ++ [c] := by
  have hpos := List.length_pos_iff.2 hcs
  obtain ⟨a, rfl⟩ := List.length_eq_one_iff.1 (show cs.length = 1 by omega)
  obtain ⟨more, hmore⟩ := hp
  match s, hs, hl, hmore with
  | [x, c], _, _, hmore =>
    simp only [List.cons_append, List.nil_append, List.cons.injEq] at hmore
    obtain ⟨rfl, rfl⟩ := hmore
    exact ⟨c, rfl, rfl⟩

end Symbol

namespace Lexeme

variable {kind : Token.Kind} {cs rest rest' : List Char}

/-- The characters that may newly stand behind a lexeme: the one that stood there, or the first
one of a gap. -/
def Follows (rest rest' : List Char) : Prop :=
  ∀ c ∈ rest'.head?, c ∈ rest.head? ∨ Text.isBlank c = true ∨ c = '/'

theorem Matches.follow (h : Matches kind cs rest) (hf : Follows rest rest') :
    Matches kind cs rest' := by
  cases h with
  | name hn hr =>
    refine .name hn fun c hc => ?_
    rcases hf c hc with hc | hb | rfl
    · exact hr c hc
    · rw [← Bool.not_eq_true]
      intro hp
      rw [Text.isBlank_of_isNamePart hp] at hb
      cases hb
    · decide +kernel
  | numeral hn hd hr =>
    refine .numeral hn hd fun c hc => ?_
    rcases hf c hc with hc | hb | rfl
    · exact hr c hc
    · have apart (hp : Text.isNamePart c = true) : False := by
        rw [Text.isBlank_of_isNamePart hp] at hb
        cases hb
      refine ⟨?_, ?_, ?_⟩
      · rw [← Bool.not_eq_true]
        exact fun hdigit => apart (Text.isNamePart_of_isDigit hdigit)
      · rintro rfl
        exact absurd hb (by decide)
      · rw [← Bool.not_eq_true]
        exact fun hs => apart (Text.isNamePart_of_isNameStart hs)
    · decide +kernel
  | quoted hq hb => exact .quoted hq hb
  | symbol hs longest hc =>
    have hmem := Symbol.mem_spellings_iff.2 hs
    have hne : cs ≠ [] := List.length_pos_iff.1 (Symbol.length_pos hmem)
    -- What is longer than the symbol was there before.
    have further {s : List Char} (hsp : s ∈ ['/', '*'] :: Symbol.spellings.map Prod.fst)
        (hp : s <+: cs ++ rest') (hl : cs.length < s.length) : s <+: cs ++ rest := by
      obtain ⟨hlen, htail⟩ := Symbol.spellings_tail s hsp
      obtain ⟨c, hc, rfl⟩ := Symbol.eq_append_of_prefix hlen hne hp hl
      have hct : c ∈ (cs ++ [c]).tail := by
        rw [List.tail_append_of_ne_nil hne]
        simp
      have hnot := List.all_eq_true.1 htail c hct
      simp only [Bool.and_eq_true, Bool.not_eq_true', bne_iff_ne] at hnot
      obtain ⟨hblank, hslash⟩ := hnot
      rcases hf c hc with hc | hb | rfl
      · obtain ⟨more, rfl⟩ := List.head?_eq_some_iff.1 hc
        exact ⟨more, by simp⟩
      · rw [hblank] at hb
        cases hb
      · exact absurd rfl hslash
    refine .symbol hs (fun k s hk hp => ?_) fun hp => ?_
    · by_cases hl : cs.length < s.length
      · have hspelling := List.mem_map_of_mem (f := Prod.fst) (Symbol.mem_spellings_iff.2 hk)
        exact longest k s hk (further (.tail _ hspelling) hp hl)
      · exact Nat.le_of_not_lt hl
    · by_cases hl : cs.length < 2
      · exact hc (further (.head _) hp hl)
      · have hcs := List.prefix_of_prefix_length_le hp (List.prefix_append cs rest')
          (Nat.le_of_not_lt hl)
        exact hc (hcs.trans (List.prefix_append cs rest))

theorem Follows.take (rest more : List Char) : Follows (rest ++ more) rest := by
  intro c hc
  obtain ⟨cs, rfl⟩ := List.head?_eq_some_iff.1 hc
  exact .inl rfl

theorem Matches.ne_nil (h : Matches kind cs rest) : cs ≠ [] := by
  have hw := width_pos (scan_of_matches h)
  exact List.length_pos_iff.1 hw

end Lexeme

theorem Gap.follows {gap : List Char} (g : Gap gap) (hne : gap ≠ []) (rest more : List Char) :
    Lexeme.Follows rest (gap ++ more) := by
  cases g with
  | nil => exact absurd rfl hne
  | blank hb _ =>
    intro d hd
    cases hd
    exact .inr (.inl hb)
  | comment _ _ =>
    intro d hd
    cases hd
    exact .inr (.inr rfl)

end RuleFormula
