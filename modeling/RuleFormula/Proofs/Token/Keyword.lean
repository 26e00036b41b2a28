import RuleFormula.Token.Basic

set_option autoImplicit false

namespace RuleFormula

def reservedWords : List String := ["AND", "OR", "NOT", "TRUE", "FALSE", "NULL"]

/-- Whether a text is one of the six words, in any case of its ASCII letters. -/
def IsReserved (text : String) : Prop := ∃ w ∈ reservedWords, Text.sameWord text w

instance (text : String) : Decidable (IsReserved text) :=
  inferInstanceAs (Decidable (∃ w ∈ reservedWords, Text.sameWord text w))

theorem Keyword.mem_all (k : Keyword) : k ∈ all := by cases k <;> decide

theorem Keyword.spelling_injective {k l : Keyword}
    (h : Text.upper k.spelling = Text.upper l.spelling) : k = l := by
  revert h
  cases k <;> cases l <;> decide

theorem Keyword.ofText?_eq_some_iff {s : String} {k : Keyword} :
    ofText? s = some k ↔ Text.sameWord s k.spelling := by
  constructor
  · intro h
    have hk := List.find?_some h
    exact hk
  · intro h
    cases hf : ofText? s with
    | none => exact absurd h (List.find?_eq_none.1 hf k k.mem_all)
    | some l =>
      have hl := List.find?_some hf
      rw [Text.sameWord_iff] at h hl
      rw [spelling_injective (hl.symm.trans h)]

theorem mem_reservedWords_iff {w : String} : w ∈ reservedWords ↔ ∃ k : Keyword, k.spelling = w := by
  constructor
  · intro hw
    simp only [reservedWords, List.mem_cons, List.not_mem_nil, or_false] at hw
    rcases hw with rfl | rfl | rfl | rfl | rfl | rfl
    · exact ⟨.and, rfl⟩
    · exact ⟨.or, rfl⟩
    · exact ⟨.not, rfl⟩
    · exact ⟨.true, rfl⟩
    · exact ⟨.false, rfl⟩
    · exact ⟨.null, rfl⟩
  · intro hx
    obtain ⟨k, rfl⟩ := hx
    cases k <;> decide

theorem isReserved_iff {s : String} : IsReserved s ↔ ∃ k, Keyword.ofText? s = some k := by
  simp only [IsReserved, Keyword.ofText?_eq_some_iff, mem_reservedWords_iff]
  constructor
  · intro hx
    obtain ⟨_, ⟨k, rfl⟩, h⟩ := hx
    exact ⟨k, h⟩
  · intro hx
    obtain ⟨k, h⟩ := hx
    exact ⟨_, ⟨k, rfl⟩, h⟩

theorem Keyword.ofText?_eq_none_iff {s : String} : ofText? s = none ↔ ¬ IsReserved s := by
  rw [isReserved_iff]
  cases ofText? s <;> simp

theorem Token.kind_of_isWord {t : Token} {word : String} (h : t.isWord word) :
    t.kind = .identifier := by
  simp only [isWord, Bool.and_eq_true, decide_eq_true_eq] at h
  exact h.1

theorem Token.isWord_spelling (k : Keyword) {t : Token} :
    t.isWord k.spelling ↔ t.kind = .identifier ∧ Keyword.ofText? t.text = some k := by
  simp [isWord, Keyword.ofText?_eq_some_iff]

theorem Token.keyword?_eq_some_iff {t : Token} {k : Keyword} :
    t.keyword? = some k ↔ t.isWord k.spelling := by
  rw [isWord_spelling]
  unfold keyword?
  split <;> simp [*]

end RuleFormula
