import RuleFormula.Decimal.Reader

/-! Decimals as text: what is written reads back as the same decimal, scale included. -/
set_option autoImplicit false

namespace RuleFormula.Decimal

theorem le_ofDigitChars (cs : List Char) (n : Nat) : n ≤ Nat.ofDigitChars 10 cs n := by
  induction cs generalizing n with
  | nil => simp
  | cons c cs ih =>
    have h := ih (10 * n + (c.toNat - '0'.toNat))
    rw [Nat.ofDigitChars_cons]
    omega

theorem isDigit_of_mem_lowDigits {k n : Nat} {c : Char} (h : c ∈ lowDigits k n) :
    c.isDigit = true := by
  induction k generalizing n with
  | zero => simp [lowDigits] at h
  | succ k ih =>
    rcases List.mem_append.1 h with h | h
    · exact ih h
    · rw [List.mem_singleton.1 h, Nat.isDigit_digitChar]
      simp; omega

theorem ofDigitChars_lowDigits (k n m : Nat) :
    Nat.ofDigitChars 10 (lowDigits k n) m = m * tens k + n % tens k := by
  induction k generalizing n with
  | zero => simp [lowDigits, tens_zero, Nat.mod_one]
  | succ k ih =>
    have hn : n % (10 * tens k) = n % 10 + 10 * (n / 10 % tens k) := Nat.mod_mul
    rw [lowDigits, Nat.ofDigitChars_append, ih,
      Nat.ofDigitChars_cons_digitChar_of_lt_ten (by omega), Nat.ofDigitChars_nil, tens_succ, hn,
      Nat.mul_left_comm]
    omega

theorem toList_toText {d : Decimal} (h : 0 ≤ d.coefficient) :
    d.toText.toList = Nat.toDigits 10 (d.coefficient.natAbs / tens d.scale) ++
      if d.scale = 0 then [] else '.' :: lowDigits d.scale d.coefficient.natAbs := by
  have hn : ¬ d.coefficient < 0 := by omega
  by_cases hs : d.scale = 0 <;> simp [toText, hn, hs, Nat.toList_repr]

theorem eq_of_coefficient_scale {a b : Decimal} (hc : a.coefficient = b.coefficient)
    (hs : a.scale = b.scale) : a = b := by
  cases a
  cases b
  simp_all

theorem push?_eq_some_iff {d next : Decimal} {place : Bool} {digit : Nat} :
    d.push? place digit = some next ↔
      next.coefficient = d.coefficient * 10 + digit ∧ next.scale = d.scale + place.toNat := by
  unfold push?
  constructor
  · intro h
    split at h <;> cases h
    exact ⟨rfl, rfl⟩
  · intro hx
    obtain ⟨hc, hs⟩ := hx
    have hlt := next.coefficient_lt
    have hle := next.scale_le
    rw [hc] at hlt
    rw [hs] at hle
    rw [dif_pos ⟨hlt, hle⟩]
    exact congrArg some (eq_of_coefficient_scale hc.symm hs.symm)

theorem readDigits_digits (point digit : Bool) {cs : List Char} (rest : List Char)
    {d after : Decimal} {n : Nat} (hd : d.coefficient = n) (hp : point = false → d.scale = 0)
    (hcs : ∀ c ∈ cs, c.isDigit = true) (hc : after.coefficient = Nat.ofDigitChars 10 cs n)
    (hs : after.scale = d.scale + point.toNat * cs.length) :
    readDigits point digit d (cs ++ rest) =
      readDigits point (digit || !cs.isEmpty) after rest := by
  induction cs generalizing digit d n with
  | nil =>
    have he : after = d := eq_of_coefficient_scale (by simp [hc, hd]) (by simp [hs])
    simp [he]
  | cons c cs ih =>
    have hlt := after.coefficient_lt
    have hle := after.scale_le
    have hgrow := le_ofDigitChars cs (10 * n + digitValue c)
    rw [Nat.ofDigitChars_cons] at hc
    change after.coefficient = (Nat.ofDigitChars 10 cs (10 * n + digitValue c) : Nat) at hc
    rw [List.length_cons, Nat.mul_add, Nat.mul_one] at hs
    have hscale : d.scale ≠ 28 := by
      cases point
      · rw [hp rfl]; decide
      · simp only [Bool.toNat_true] at hs; omega
    let next : Decimal :=
      ⟨(10 * n + digitValue c : Nat), d.scale + point.toNat, by omega, by omega⟩
    have hpush : d.push? point (digitValue c) = some next :=
      push?_eq_some_iff.2 ⟨by simp only [next]; omega, rfl⟩
    have hrest := @ih true next (10 * n + digitValue c) rfl (fun h => by simp [next, h, hp h])
      (fun x hx => hcs x (.tail _ hx)) hc (by simp only [next]; omega)
    rw [List.cons_append, readDigits, if_neg hscale, if_pos (hcs c (.head _)), hpush]
    simpa using hrest

theorem readSigned_of_isDigit {c : Char} {cs : List Char} (h : c.isDigit = true) :
    readSigned (c :: cs) = readDigits false false zero (c :: cs) := by
  unfold readSigned
  split
  · contradiction
  · simp_all [Char.isDigit]
  · simp_all [Char.isDigit]
  · rfl

theorem exists_toDigits (n : Nat) :
    ∃ c cs, Nat.toDigits 10 n = c :: cs ∧ ∀ x ∈ c :: cs, x.isDigit = true := by
  cases h : Nat.toDigits 10 n with
  | nil => exact absurd h Nat.toDigits_ne_nil
  | cons c cs =>
    refine ⟨c, cs, rfl, fun x hx => ?_⟩
    rw [← h] at hx
    exact Nat.isDigit_of_mem_toDigits (by decide) (by decide) hx

theorem natAbs_whole_lt (d : Decimal) :
    (Int.ofNat (d.coefficient.natAbs / tens d.scale)).natAbs < bound := by
  rw [Int.natAbs_ofNat']
  exact Nat.lt_of_le_of_lt (Nat.div_le_self _ _) d.coefficient_lt

def whole (d : Decimal) : Decimal :=
  ⟨Int.ofNat (d.coefficient.natAbs / tens d.scale), 0, d.natAbs_whole_lt, zero.scale_le⟩

theorem readSigned_whole (d : Decimal) (rest : List Char) :
    readSigned (Nat.toDigits 10 (d.coefficient.natAbs / tens d.scale) ++ rest) =
      readDigits false true d.whole rest := by
  obtain ⟨c, cs, hw, hdigits⟩ := exists_toDigits (d.coefficient.natAbs / tens d.scale)
  have hv : Nat.ofDigitChars 10 (c :: cs) 0 = d.coefficient.natAbs / tens d.scale := by
    rw [← hw, Nat.ofDigitChars_ten_toDigits]
  have hr := @readDigits_digits false false (c :: cs) rest zero d.whole 0 rfl (fun _ => rfl) hdigits
    (by rw [hv]; rfl) (by simp [whole, zero])
  rw [hw, List.cons_append, readSigned_of_isDigit (hdigits c (.head _))]
  simpa using hr

theorem readDigits_places {d : Decimal} (h : 0 ≤ d.coefficient) :
    readDigits true true d.whole (lowDigits d.scale d.coefficient.natAbs) = .ok d := by
  have hv : d.coefficient = Nat.ofDigitChars 10 (lowDigits d.scale d.coefficient.natAbs)
      (d.coefficient.natAbs / tens d.scale) := by
    rw [ofDigitChars_lowDigits, Nat.mul_comm, Nat.div_add_mod]
    omega
  have hr := @readDigits_digits true true (lowDigits d.scale d.coefficient.natAbs)
    [] d.whole d _ rfl
    (by simp) (fun x hx => isDigit_of_mem_lowDigits hx) hv (by simp [whole, length_lowDigits])
  rw [List.append_nil] at hr
  simpa [readDigits] using hr

theorem whole_of_scale {d : Decimal} (h : 0 ≤ d.coefficient) (hs : d.scale = 0) : d.whole = d := by
  apply eq_of_coefficient_scale
  · simp only [whole, hs, tens_zero, Nat.div_one]
    exact Int.natAbs_of_nonneg h
  · exact hs.symm

theorem read_toText {d : Decimal} (h : 0 ≤ d.coefficient) : read d.toText = .ok d := by
  rw [read, toList_toText h, readSigned_whole]
  by_cases hs : d.scale = 0
  · simp [hs, readDigits, whole_of_scale h hs]
  · rw [if_neg hs, readDigits, if_neg (by simp [whole]), if_neg (by decide), if_pos rfl]
    exact readDigits_places h

theorem exists_toText {d : Decimal} (h : 0 ≤ d.coefficient) :
    ∃ c cs, d.toText.toList = c :: cs ∧ c.isDigit = true := by
  obtain ⟨c, cs, hw, hdigits⟩ := exists_toDigits (d.coefficient.natAbs / tens d.scale)
  rw [toList_toText h, hw]
  exact ⟨c, _, rfl, hdigits c (.head _)⟩

theorem readDigits_toText {d : Decimal} (h : 0 ≤ d.coefficient) :
    readDigits false false zero d.toText.toList = .ok d := by
  obtain ⟨c, cs, hcs, hc⟩ := exists_toText h
  have hr := read_toText h
  rw [read, hcs, readSigned_of_isDigit hc] at hr
  rw [hcs, hr]

theorem toText_of_neg {d : Decimal} (h : d.coefficient < 0) : d.toText = "-" ++ d.neg.toText := by
  have hn : ¬ 0 < d.coefficient := by omega
  simp [toText, neg, h, hn, String.append_assoc]

theorem neg_neg (d : Decimal) : d.neg.neg = d :=
  eq_of_coefficient_scale (Int.neg_neg d.coefficient) rfl

/-- A sign is read back, too. -/
theorem read_toText_signed (d : Decimal) : read d.toText = .ok d := by
  by_cases h : 0 ≤ d.coefficient
  · exact read_toText h
  · have hneg : 0 ≤ d.neg.coefficient := by simp only [neg]; omega
    have hread : read d.toText = (readDigits false false zero d.neg.toText.toList).map neg := by
      rw [toText_of_neg (by omega), read, String.toList_append]
      rfl
    rw [hread, readDigits_toText hneg, Except.map, neg_neg]

theorem coefficient_nonneg_of_readDigits {point digit : Bool} {cs : List Char} {d after : Decimal}
    (hd : 0 ≤ d.coefficient) (h : readDigits point digit d cs = .ok after) :
    0 ≤ after.coefficient := by
  induction cs generalizing point digit d with
  | nil =>
    simp only [readDigits] at h
    split at h <;> cases h
    exact hd
  | cons c cs ih =>
    rw [readDigits] at h
    split at h
    · cases h
    · split at h
      · split at h
        next next hpush =>
          have hc := (push?_eq_some_iff.1 hpush).1
          exact ih (by omega) h
        next => cases h
      · split at h
        · split at h
          · cases h
          · exact ih hd h
        · split at h
          · split at h
            · exact ih hd h
            · cases h
          · cases h

theorem coefficient_nonneg_of_read {s : String} {c : Char} {cs : List Char} {d : Decimal}
    (hs : s.toList = c :: cs) (hc : c.isDigit = true) (h : read s = .ok d) :
    0 ≤ d.coefficient := by
  rw [read, hs, readSigned_of_isDigit hc] at h
  exact coefficient_nonneg_of_readDigits (Int.le_refl 0) h

end RuleFormula.Decimal
