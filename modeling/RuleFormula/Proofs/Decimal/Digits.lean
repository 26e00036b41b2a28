import RuleFormula.Proofs.Decimal.Exact

/-! Digits as they stand in a source, and how the decimal that they are read as is written. All of
the digits are written again, but for zeros in front. -/
set_option autoImplicit false

namespace RuleFormula

namespace Decimal

theorem digitValue_lt {c : Char} (h : c.isDigit = true) : digitValue c < 10 := by
  have hhigh : c.toNat ≤ 57 := (Char.isDigit_iff_toNat.1 h).2
  change c.toNat - 48 < 10
  omega

theorem digitChar_digitValue {c : Char} (h : c.isDigit = true) :
    Nat.digitChar (digitValue c) = c := by
  have hlow : 48 ≤ c.toNat := (Char.isDigit_iff_toNat.1 h).1
  apply Char.toNat_inj.1
  rw [Nat.toNat_digitChar_of_lt_ten (digitValue_lt h)]
  exact Nat.add_sub_cancel' hlow

theorem ofDigitChars_cons (c : Char) (cs : List Char) (n : Nat) :
    Nat.ofDigitChars 10 (c :: cs) n = Nat.ofDigitChars 10 cs (10 * n + digitValue c) :=
  Nat.ofDigitChars_cons

theorem toDigits_ofDigitChars {cs : List Char} (hcs : ∀ c ∈ cs, c.isDigit = true) {n : Nat}
    (hn : 0 < n ∨ cs = []) :
    Nat.toDigits 10 (Nat.ofDigitChars 10 cs n) = Nat.toDigits 10 n ++ cs := by
  induction cs generalizing n with
  | nil => simp
  | cons c cs ih =>
    have hpos : 0 < n := hn.resolve_right (List.cons_ne_nil c cs)
    have hc := hcs c (.head _)
    have hstep := Nat.toDigits_append_toDigits (by decide : 1 < 10) hpos (digitValue_lt hc)
    rw [Nat.toDigits_of_lt_base (digitValue_lt hc), digitChar_digitValue hc] at hstep
    rw [ofDigitChars_cons, ih (fun x hx => hcs x (.tail _ hx)) (.inl (by omega)), ← hstep,
      List.append_assoc]
    rfl

theorem ofDigitChars_div_tens {cs : List Char} (hcs : ∀ c ∈ cs, c.isDigit = true) (n : Nat) :
    Nat.ofDigitChars 10 cs n / tens cs.length = n := by
  induction cs generalizing n with
  | nil => simp [tens_zero]
  | cons c cs ih =>
    have hc := digitValue_lt (hcs c (.head _))
    rw [ofDigitChars_cons, List.length_cons, tens_succ, Nat.mul_comm 10 (tens cs.length),
      ← Nat.div_div_eq_div_mul, ih fun x hx => hcs x (.tail _ hx)]
    omega

theorem lowDigits_succ (k n : Nat) :
    lowDigits (k + 1) n = Nat.digitChar (n / tens k % 10) :: lowDigits k n := by
  induction k generalizing n with
  | zero => simp [lowDigits, tens_zero]
  | succ k ih =>
    rw [lowDigits, ih, List.cons_append, Nat.div_div_eq_div_mul, ← tens_succ]
    rfl

theorem lowDigits_ofDigitChars {cs : List Char} (hcs : ∀ c ∈ cs, c.isDigit = true) (n : Nat) :
    lowDigits cs.length (Nat.ofDigitChars 10 cs n) = cs := by
  induction cs generalizing n with
  | nil => rfl
  | cons c cs ih =>
    have hc := hcs c (.head _)
    have hcs := fun x hx => hcs x (List.mem_cons_of_mem c hx)
    rw [ofDigitChars_cons, List.length_cons, lowDigits_succ, ofDigitChars_div_tens hcs, ih hcs,
      Nat.mul_add_mod, Nat.mod_eq_of_lt (digitValue_lt hc), digitChar_digitValue hc]

/-- No zeros in front of another digit. -/
def trim : List Char → List Char
  | '0' :: c :: cs => trim (c :: cs)
  | cs => cs

theorem toDigits_ofDigits {cs : List Char} (hne : cs ≠ []) (hcs : ∀ c ∈ cs, c.isDigit = true) :
    Nat.toDigits 10 (ofDigits cs) = trim cs := by
  fun_induction trim cs with
  | case1 c cs ih => exact ih (List.cons_ne_nil c cs) fun x hx => hcs x (.tail _ hx)
  | case2 cs hzero =>
    obtain ⟨c, cs, rfl⟩ := List.exists_cons_of_ne_nil hne
    have hc := hcs c (.head _)
    have hchar := digitChar_digitValue hc
    have hn : 0 < digitValue c ∨ cs = [] := by
      rcases Nat.eq_zero_or_pos (digitValue c) with hv | hpos
      · cases cs with
        | nil => exact .inr rfl
        | cons d ds =>
          rw [hv] at hchar
          exact (hzero d ds (by rw [← hchar]; rfl)).elim
      · exact .inl hpos
    rw [ofDigits, ofDigitChars_cons, Nat.mul_zero, Nat.zero_add,
      toDigits_ofDigitChars (fun x hx => hcs x (.tail _ hx)) hn,
      Nat.toDigits_of_lt_base (digitValue_lt hc), hchar]
    rfl

theorem trim_ne_nil {cs : List Char} (h : cs ≠ []) : trim cs ≠ [] := by
  fun_induction trim cs with
  | case1 c cs ih => exact ih (List.cons_ne_nil c cs)
  | case2 => exact h

theorem isDigit_of_mem_trim {cs : List Char} (hcs : ∀ c ∈ cs, c.isDigit = true) :
    ∀ c ∈ trim cs, c.isDigit = true := by
  fun_induction trim cs with
  | case1 c cs ih => exact ih fun x hx => hcs x (.tail _ hx)
  | case2 => exact hcs

end Decimal

/-- The digits of a number, and those behind a point if there are any. -/
structure Digits where
  whole : List Char
  places : List Char
  whole_ne_nil : whole ≠ []
  whole_isDigit : ∀ c ∈ whole, c.isDigit = true
  places_isDigit : ∀ c ∈ places, c.isDigit = true

namespace Digits

variable (n : Digits)

def text : List Char := n.whole ++ if n.places = [] then [] else '.' :: n.places

/-- The number that all of the digits write, without the point. -/
def value : Nat := Decimal.ofDigits (n.whole ++ n.places)

def Fits : Prop := n.value < Nat.pow 2 96 ∧ n.places.length ≤ 28

def reduced : Digits :=
  ⟨Decimal.trim n.whole, n.places, Decimal.trim_ne_nil n.whole_ne_nil,
    Decimal.isDigit_of_mem_trim n.whole_isDigit, n.places_isDigit⟩

variable {n}

def decimal (h : n.Fits) : Decimal := ⟨n.value, n.places.length, h.1, h.2⟩

theorem read_text (h : n.Fits) : Decimal.read (String.ofList n.text) = .ok (decimal h) := by
  by_cases hp : n.places = []
  · have hvalue : n.value = Decimal.ofDigits n.whole := by rw [value, hp, List.append_nil]
    have hlt : Decimal.ofDigits n.whole < Decimal.bound := hvalue ▸ h.1
    rw [text, if_pos hp, List.append_nil, Decimal.read_whole n.whole_ne_nil n.whole_isDigit hlt]
    congr 1
    exact Decimal.eq_of_coefficient_scale (congrArg Int.ofNat hvalue.symm)
      (congrArg List.length hp).symm
  · rw [text, if_neg hp]
    exact Decimal.read_places n.whole_ne_nil n.whole_isDigit n.places_isDigit h.1 h.2

theorem exists_read_error (h : ¬ n.Fits) : ∃ e, Decimal.read (String.ofList n.text) = .error e := by
  by_cases hw : Decimal.bound ≤ Decimal.ofDigits n.whole
  · exact ⟨_, Decimal.read_overflow n.whole_ne_nil n.whole_isDigit hw _⟩
  have hlt := Nat.lt_of_not_le hw
  have hx : Decimal.bound ≤ n.value ∨ 28 < n.places.length := by
    rw [Fits, Decidable.not_and_iff_or_not, Nat.not_lt, Nat.not_le] at h
    exact h
  have hp : n.places ≠ [] := by
    intro hp
    rw [value, hp, List.append_nil] at hx
    rcases hx with hx | hx
    · exact hw hx
    · exact absurd hx (by decide)
  rw [text, if_neg hp]
  exact ⟨_, Decimal.read_tooPrecise n.whole_ne_nil n.whole_isDigit n.places_isDigit hlt hx⟩

/-- The decimal is written with the digits that it was read from. -/
theorem toText_decimal (h : n.Fits) : (decimal h).toText = String.ofList n.reduced.text := by
  have hcoefficient : (decimal h).coefficient.natAbs = n.value := rfl
  have hscale : (decimal h).scale = n.places.length := rfl
  rw [← String.toList_inj, String.toList_ofList, Decimal.toList_toText (Int.natCast_nonneg n.value),
    hcoefficient, hscale, value, Decimal.ofDigits_append,
    Decimal.ofDigitChars_div_tens n.places_isDigit, Decimal.lowDigits_ofDigitChars n.places_isDigit,
    Decimal.toDigits_ofDigits n.whole_ne_nil n.whole_isDigit]
  by_cases hp : n.places = [] <;> simp [text, reduced, hp]

end Digits

end RuleFormula
