import Mathlib.Data.List.DropRight
import RuleFormula.Proofs.Location
import RuleFormula.Text.Lines

set_option autoImplicit false

namespace RuleFormula

namespace Text

variable {before line after cs : List Char} {index offset : Nat}

theorem lines_of_not_mem (h : '\n' ∉ line) : lines line = [line] := by
  induction line with
  | nil => rfl
  | cons c cs ih =>
    rw [List.mem_cons, not_or] at h
    rw [lines, if_neg (Ne.symm h.1), ih h.2]

theorem not_mem_toDigits (n : Nat) : '\n' ∉ Nat.toDigits 10 n := by
  intro hm
  have hdigit := Nat.isDigit_of_mem_toDigits (by decide) (by decide) hm
  exact absurd hdigit (by decide)

theorem lines_append (cs rest : List Char) :
    lines (cs ++ '\n' :: rest) = lines cs ++ lines rest := by
  induction cs with
  | nil => simp [lines]
  | cons c cs ih =>
    by_cases hc : c = '\n'
    · simp [lines, hc, ih]
    · rw [List.cons_append, lines, if_neg hc, ih, lines, if_neg hc]
      cases hcs : lines cs with
      | nil => exact absurd hcs (lines_ne_nil cs)
      | cons line more => rfl

theorem lines_toList_append (s t : String) :
    lines (s ++ "\n" ++ t).toList = lines s.toList ++ lines t.toList := by
  rw [String.toList_append, String.toList_append, List.append_assoc]
  exact lines_append s.toList t.toList

/-- Texts without line feeds, each of them ended by one, are the lines in front of an
empty last one. -/
theorem lines_flatMap {rows : List (List Char)} (h : ∀ row ∈ rows, '\n' ∉ row) :
    lines (rows.flatMap (· ++ ['\n'])) = rows ++ [[]] := by
  induction rows with
  | nil => rfl
  | cons row rows ih =>
    rw [List.forall_mem_cons] at h
    rw [List.flatMap_cons, List.append_assoc, List.singleton_append, lines_append,
      lines_of_not_mem h.1, ih h.2, List.cons_append, List.nil_append, List.cons_append]

/-- The character with this offset, or the end that has it, is on the line, so far
behind its start. -/
inductive OnLine : List Char → Nat → List Char → Nat → Prop
  | intro {before line after : List Char} {index : Nat}
      (hbefore : before = [] ∨ ∃ above, before = above ++ ['\n']) (hline : '\n' ∉ line)
      (hafter : ∀ c ∈ after.head?, c = '\n') (hindex : index ≤ line.length) :
      OnLine (before ++ (line ++ after)) (before.length + index) line index

theorem lines_of_line (hline : '\n' ∉ line) (hafter : ∀ c ∈ after.head?, c = '\n') :
    ∃ below, lines (line ++ after) = line :: below ∧ (after = [] → below = []) := by
  cases after with
  | nil => exact ⟨[], by rw [List.append_nil, lines_of_not_mem hline], fun _ => rfl⟩
  | cons c after =>
    obtain rfl : c = '\n' := hafter c rfl
    refine ⟨lines after, ?_, by simp⟩
    rw [lines_append, lines_of_not_mem hline, List.singleton_append]

theorem exists_lines (hbefore : before = [] ∨ ∃ above, before = above ++ ['\n'])
    (hline : '\n' ∉ line) (hafter : ∀ c ∈ after.head?, c = '\n') : ∃ above below,
      lines (before ++ (line ++ after)) = above ++ line :: below ∧
        above.length = before.count '\n' ∧
        (after = [] → below = []) := by
  obtain ⟨below, hlines, hbelow⟩ := lines_of_line hline hafter
  obtain rfl | ⟨above, rfl⟩ := hbefore
  · exact ⟨[], below, hlines, rfl, hbelow⟩
  · refine ⟨lines above, below, ?_, ?_, hbelow⟩
    · rw [List.append_assoc, List.singleton_append, lines_append, hlines]
    · simp [length_lines]

theorem OnLine.not_mem (h : OnLine cs offset line index) : '\n' ∉ line := by
  cases h
  assumption

theorem OnLine.getElem?_eq {text : List Char} (h : OnLine cs offset text index) {c : Char}
    (hc : cs[offset]? = some c) (hne : c ≠ '\n') : text[index]? = some c := by
  cases h with
  | @intro before _ after _ hbefore _ hafter hindex =>
    rw [List.getElem?_append_right (Nat.le_add_right ..), Nat.add_sub_cancel_left] at hc
    by_cases hlt : index < text.length
    · rwa [List.getElem?_append_left hlt] at hc
    · obtain rfl : index = text.length := by omega
      rw [List.getElem?_append_right (Nat.le_refl _), Nat.sub_self, ← List.head?_eq_getElem?] at hc
      exact absurd (hafter c hc) hne

theorem OnLine.at_end (h : OnLine cs offset line index) (he : offset = cs.length) :
    index = line.length ∧ (lines cs).getLast? = some line := by
  cases h with
  | @intro before _ after _ hbefore hline hafter hindex =>
    rw [List.length_append, List.length_append] at he
    obtain rfl : after = [] := List.eq_nil_of_length_eq_zero (by omega)
    obtain ⟨above, below, hlines, -, hbelow⟩ := exists_lines hbefore hline hafter
    refine ⟨?_, ?_⟩
    · simp only [List.length_nil] at he
      omega
    · rw [hlines, hbelow rfl, List.getLast?_append, List.getLast?_singleton, Option.some_or]

theorem rdropWhile_eq_nil_or (p : Char → Bool) (cs : List Char) :
    cs.rdropWhile p = [] ∨ ∃ front c, cs.rdropWhile p = front ++ [c] ∧ p c = false := by
  by_cases hne : cs.rdropWhile p = []
  · exact .inl hne
  · have hlast := List.rdropWhile_last_not p cs hne
    exact .inr ⟨_, _, (List.dropLast_append_getLast hne).symm, Bool.eq_false_iff.2 hlast⟩

section

variable {p : Char → Bool} {back : List Char}

theorem dropTrailing_append (h : ∀ c ∈ back, p c = true) :
    dropTrailing p (cs ++ back) = dropTrailing p cs := by
  have hback : ∀ c ∈ back.reverse, p c = true := fun c hc => h c (List.mem_reverse.1 hc)
  rw [dropTrailing, List.reverse_append, List.dropWhile_append_of_pos hback, dropTrailing]

theorem dropTrailing_eq_self (h : ∀ c ∈ cs.getLast?, p c = false) : dropTrailing p cs = cs := by
  rcases List.eq_nil_or_concat cs with rfl | ⟨front, c, rfl⟩
  · rfl
  · have hc : p c = false := h c (by simp)
    simp [dropTrailing, hc]

theorem exists_dropTrailing_append (p : Char → Bool) (cs : List Char) : ∃ back,
    cs = dropTrailing p cs ++ back ∧ ∀ c ∈ back, p c = true :=
  ⟨cs.rtakeWhile p, List.rdropWhile_append_rtakeWhile.symm, fun _ hc => List.mem_rtakeWhile_imp hc⟩

end

theorem exists_returns (line : List Char) : ∃ k,
    line = dropTrailing (· == '\r') line ++ List.replicate k '\r' ∧
      (dropTrailing (· == '\r') line).getLast? ≠ some '\r' := by
  obtain ⟨back, hcut, hback⟩ := exists_dropTrailing_append (· == '\r') line
  have hreturns := List.eq_replicate_of_mem (a := '\r') (l := back)
    fun c hc => by simpa using hback c hc
  refine ⟨back.length, ?_, ?_⟩
  · rw [← hreturns]
    exact hcut
  · change (line.rdropWhile (· == '\r')).getLast? ≠ _
    rcases rdropWhile_eq_nil_or (· == '\r') line with he | ⟨front, c, he, hc⟩
    · simp [he]
    · simpa [he] using hc

theorem getElem?_dropTrailing {text : List Char} {c : Char} (h : text[index]? = some c)
    (hne : c ≠ '\r') :
    (dropTrailing (· == '\r') text)[index]? = some c := by
  obtain ⟨k, htext, -⟩ := exists_returns text
  rw [htext] at h
  by_cases hlt : index < (dropTrailing (· == '\r') text).length
  · rwa [List.getElem?_append_left hlt] at h
  · rw [List.getElem?_append_right (by omega)] at h
    exact absurd (List.eq_of_mem_replicate (List.mem_of_getElem? h)) hne

theorem exists_last_line (front : List Char) : ∃ before left, front = before ++ left ∧
    (before = [] ∨ ∃ above, before = above ++ ['\n']) ∧ '\n' ∉ left ∧
      left.length = (front.reverse.takeWhile (· != '\n')).length := by
  refine ⟨front.rdropWhile (· != '\n'), front.rtakeWhile (· != '\n'),
    List.rdropWhile_append_rtakeWhile.symm, ?_, fun hm => ?_, List.length_reverse⟩
  · rcases rdropWhile_eq_nil_or (· != '\n') front with he | ⟨above, c, he, hc⟩
    · exact .inl he
    · obtain rfl : c = '\n' := by simpa using hc
      exact .inr ⟨above, he⟩
  · simpa using List.mem_rtakeWhile_imp hm

theorem exists_first_line (rest : List Char) : ∃ right after, rest = right ++ after ∧
    '\n' ∉ right ∧ ∀ c ∈ after.head?, c = '\n' := by
  refine ⟨rest.takeWhile (· != '\n'), rest.dropWhile (· != '\n'),
    List.takeWhile_append_dropWhile.symm, fun hm => ?_, fun c hc => ?_⟩
  · simpa using List.mem_takeWhile_imp hm
  · have h := List.head?_dropWhile_not (· != '\n') rest
    rw [hc] at h
    simpa using h

end Text

/-- A true place is on the line that it names, which is there. -/
theorem Location.In.exists_line {cs : List Char} {l : Location} (h : l.In cs) : ∃ line,
    Text.OnLine cs l.offset line (l.column - 1) ∧ 1 ≤ l.line ∧
      (Text.lines cs)[l.line - 1]? = some line := by
  obtain ⟨hle, hl⟩ := h
  obtain ⟨before, left, hfront, hbefore, hleft, hlength⟩ := Text.exists_last_line (cs.take l.offset)
  obtain ⟨right, after, hrest, hright, hafter⟩ := Text.exists_first_line (cs.drop l.offset)
  have hcolumn : l.column - 1 = left.length := by
    rw [hl, hlength]
    exact Nat.add_sub_cancel_left ..
  have hnumber : l.line - 1 = before.count '\n' := by
    rw [hl, locate, hfront, List.count_append, List.count_eq_zero_of_not_mem hleft]
    exact Nat.add_sub_cancel_left ..
  have hoffset : l.offset = before.length + left.length := by
    rw [← List.length_append, ← hfront, List.length_take_of_le hle]
  have hline : '\n' ∉ left ++ right := by simp [hleft, hright]
  have hcs : cs = before ++ ((left ++ right) ++ after) := by
    rw [← List.take_append_drop l.offset cs, hfront, hrest]
    simp
  obtain ⟨above, below, hlines, habove, -⟩ := Text.exists_lines hbefore hline hafter
  refine ⟨left ++ right, ?_, ?_, ?_⟩
  · rw [hcs, hoffset, hcolumn]
    exact .intro hbefore hline hafter (by simp)
  · rw [hl, locate]
    exact Nat.le_add_right ..
  · rw [hcs, hlines, hnumber, ← habove, List.getElem?_append_right (Nat.le_refl _), Nat.sub_self]
    rfl

end RuleFormula
