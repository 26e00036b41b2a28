/-! Sets of characters as inclusive ranges of code points, in increasing order. -/
set_option autoImplicit false

namespace RuleFormula.Text

abbrev Ranges := List (Nat × Nat)

def Ranges.contains : Ranges → Nat → Bool
  | [], _ => false
  | (lo, hi) :: rs, n => decide (lo ≤ n) && (decide (n ≤ hi) || Ranges.contains rs n)

def Ranges.increasing : Ranges → Bool
  | [] => true
  | [(lo, hi)] => decide (lo ≤ hi)
  | (lo, hi) :: (lo', hi') :: rs =>
    decide (lo ≤ hi) && decide (hi < lo') && Ranges.increasing ((lo', hi') :: rs)

theorem Ranges.lt_of_increasing {lo hi : Nat} {rs : Ranges}
    (h : Ranges.increasing ((lo, hi) :: rs) = true) : ∀ r ∈ rs, lo < r.1 := by
  induction rs generalizing lo hi with
  | nil => simp
  | cons r rs ih =>
    obtain ⟨lo', hi'⟩ := r
    simp only [increasing, Bool.and_eq_true, decide_eq_true_eq] at h
    intro s hs
    rcases List.mem_cons.1 hs with rfl | hs
    · dsimp only; omega
    · have := ih h.2 s hs
      omega

theorem Ranges.increasing_tail {r : Nat × Nat} {rs : Ranges}
    (h : Ranges.increasing (r :: rs) = true) : Ranges.increasing rs = true := by
  cases rs with
  | nil => rfl
  | cons s rs =>
    simp only [increasing, Bool.and_eq_true] at h
    exact h.2

theorem Ranges.contains_iff {rs : Ranges} (h : rs.increasing = true) (n : Nat) :
    rs.contains n = true ↔ ∃ r ∈ rs, r.1 ≤ n ∧ n ≤ r.2 := by
  induction rs with
  | nil => simp [contains]
  | cons r rs ih =>
    obtain ⟨lo, hi⟩ := r
    have hlt := lt_of_increasing h
    simp only [contains, Bool.and_eq_true, Bool.or_eq_true, decide_eq_true_eq,
      ih (increasing_tail h), List.mem_cons]
    constructor
    · rintro ⟨hlo, hhi | ⟨r, hr, hn⟩⟩
      · exact ⟨_, .inl rfl, hlo, hhi⟩
      · exact ⟨r, .inr hr, hn⟩
    · rintro ⟨r, rfl | hr, hn⟩
      · exact ⟨hn.1, .inl hn.2⟩
      · have := hlt r hr
        exact ⟨by omega, .inr ⟨r, hr, hn⟩⟩

end RuleFormula.Text
