import RuleFormula.Proofs.Decimal.Text

set_option autoImplicit false

namespace RuleFormula.Decimal

def ofDigits (cs : List Char) : Nat := Nat.ofDigitChars 10 cs 0

/-- Digits that a decimal does not hold are refused, whatever is behind them. -/
theorem readDigits_exceeding (point digit : Bool) {cs : List Char} (rest : List Char) {d : Decimal}
    {n : Nat} (hd : d.coefficient = n) (hp : point = false → d.scale = 0)
    (hcs : ∀ c ∈ cs, c.isDigit = true)
    (h : bound ≤ Nat.ofDigitChars 10 cs n ∨ 28 < d.scale + point.toNat * cs.length) :
    readDigits point digit d (cs ++ rest) =
      .error (if point then .tooPrecise else .overflow) := by
  induction cs generalizing digit d n with
  | nil =>
    have hlt := d.coefficient_lt
    have hle := d.scale_le
    simp only [Nat.ofDigitChars_nil, List.length_nil, Nat.mul_zero] at h
    omega
  | cons c cs ih =>
    rw [Nat.ofDigitChars_cons] at h
    change bound ≤ Nat.ofDigitChars 10 cs (10 * n + digitValue c) ∨ _ at h
    rw [List.length_cons, Nat.mul_add, Nat.mul_one] at h
    rw [List.cons_append, readDigits]
    -- With all places taken, any digit is refused; else the digit is pushed, or does not fit.
    by_cases hs : d.scale = 28
    · have hpoint : point = true := by
        rw [← Bool.not_eq_false]
        intro hf
        rw [hp hf] at hs
        cases hs
      rw [if_pos hs, if_pos hpoint]
    · rw [if_neg hs, if_pos (hcs c (.head _))]
      cases hpush : d.push? point (digitValue c) with
      | none => rfl
      | some next =>
        obtain ⟨hcoefficient, hscale⟩ := push?_eq_some_iff.1 hpush
        refine @ih true next (10 * n + digitValue c) (by omega) (fun hf => ?_)
          (fun x hx => hcs x (.tail _ hx)) (h.imp_right fun h => by omega)
        rw [hscale, hp hf, hf]
        rfl

variable {ds ps : List Char} (hne : ds ≠ []) (hd : ∀ c ∈ ds, c.isDigit = true)
include hne hd

theorem read_digits (rest : List Char) :
    read (String.ofList (ds ++ rest)) = readDigits false false zero (ds ++ rest) := by
  obtain ⟨c, cs, rfl⟩ := List.exists_cons_of_ne_nil hne
  rw [read, String.toList_ofList, List.cons_append, readSigned_of_isDigit (hd c (.head _))]

theorem read_overflow (h : bound ≤ ofDigits ds) (rest : List Char) :
    read (String.ofList (ds ++ rest)) = .error .overflow := by
  rw [read_digits hne hd]
  exact readDigits_exceeding false false rest rfl (fun _ => rfl) hd (.inl h)

theorem read_fitting (h : ofDigits ds < bound) (rest : List Char) :
    read (String.ofList (ds ++ rest)) =
      readDigits false true ⟨ofDigits ds, 0, h, by decide⟩ rest := by
  have hr := @readDigits_digits false false ds rest zero ⟨ofDigits ds, 0, h, by decide⟩ 0 rfl
    (fun _ => rfl) hd rfl (by simp [zero])
  have hsome : (false || !ds.isEmpty) = true := by simpa using hne
  rw [read_digits hne hd, hr, hsome]

theorem read_whole (h : ofDigits ds < bound) :
    read (String.ofList ds) = .ok ⟨ofDigits ds, 0, h, by decide⟩ := by
  have hr := read_fitting hne hd h []
  rwa [List.append_nil] at hr

theorem read_point (h : ofDigits ds < bound) (ps : List Char) :
    read (String.ofList (ds ++ '.' :: ps)) =
      readDigits true true ⟨ofDigits ds, 0, h, by decide⟩ ps := by
  rw [read_fitting hne hd h, readDigits, if_neg (by simp), if_neg (by decide), if_pos rfl]
  rfl

omit hne hd in
theorem ofDigits_append (ds ps : List Char) :
    ofDigits (ds ++ ps) = Nat.ofDigitChars 10 ps (ofDigits ds) :=
  Nat.ofDigitChars_append ..

theorem read_tooPrecise (hp : ∀ c ∈ ps, c.isDigit = true) (h : ofDigits ds < bound)
    (hx : bound ≤ ofDigits (ds ++ ps) ∨ 28 < ps.length) :
    read (String.ofList (ds ++ '.' :: ps)) = .error .tooPrecise := by
  rw [ofDigits_append] at hx
  have hr := readDigits_exceeding true true [] (d := ⟨ofDigits ds, 0, h, by decide⟩) rfl
    (by simp) hp
    (hx.imp_right fun h => by simpa using h)
  rw [List.append_nil] at hr
  rw [read_point hne hd h, hr]
  rfl

theorem read_places (hp : ∀ c ∈ ps, c.isDigit = true) (h : ofDigits (ds ++ ps) < bound)
    (hs : ps.length ≤ 28) :
    read (String.ofList (ds ++ '.' :: ps)) = .ok ⟨ofDigits (ds ++ ps), ps.length, h, hs⟩ := by
  have hgrow := le_ofDigitChars ps (ofDigits ds)
  rw [← ofDigits_append] at hgrow
  have hwhole := Nat.lt_of_le_of_lt hgrow h
  have hr := @readDigits_digits true true ps [] ⟨ofDigits ds, 0, hwhole, by decide⟩
    ⟨ofDigits (ds ++ ps), ps.length, h, hs⟩ (ofDigits ds) rfl (by simp) hp
    (congrArg Int.ofNat (ofDigits_append ds ps)) (by simp)
  rw [List.append_nil] at hr
  rw [read_point hne hd hwhole, hr]
  simp [readDigits]

end RuleFormula.Decimal
