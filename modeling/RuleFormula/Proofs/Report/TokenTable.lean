import Mathlib.Data.List.Forall2
import RuleFormula.Command.Basic
import RuleFormula.Proofs.Spacing
import RuleFormula.Proofs.Text.Lines

set_option autoImplicit false

namespace RuleFormula

namespace Layout

theorem kind_of_mem_tokens {x : Layout} (hx : x.Valid) {l : Location} {t : Token}
    (ht : t ∈ x.tokens l) (hfeed : '\n' ∈ t.text.toList) : t.kind = .string := by
  induction x generalizing l with
  | ending gap =>
    obtain rfl := List.mem_singleton.1 ht
    cases hfeed
  | piece gap kind lexeme rest ih =>
    obtain ⟨-, hl, hrest⟩ := hx
    rcases List.mem_cons.1 ht with rfl | ht
    · rw [String.toList_ofList] at hfeed
      by_contra hk
      exact absurd (hl.isBlank_eq_false hk _ hfeed) (by decide)
    · exact ih hrest ht

end Layout

namespace TokenTable

def place (t : Token) : String := t.location.line.repr ++ ":" ++ t.location.column.repr

/-- A place, a kind and a text with blanks between them. The kinds are in one column, as far as the
places leave room for it, and so are the texts. -/
def IsRow (row : List Char) (t : Token) : Prop := ∃ m n,
  row = (place t).toList ++ (List.replicate m ' ' ++
    (t.kind.name.toList ++ (List.replicate n ' ' ++ t.text.toList))) ∧
  (place t).length + m = max 9 ((place t).length + 1) ∧ t.kind.name.length + n = 23

/-- The table has a line for each token and no others. -/
def OneLineEach (table : String) (ts : List Token) : Prop :=
  ∃ rows, Text.lines table.toList = rows ++ [[]] ∧ List.Forall₂ IsRow rows ts

def cells (t : Token) : List Char :=
  (padRight 8 (place t)).toList ++ (' ' :: ((padRight 22 t.kind.name).toList ++
    (' ' :: t.text.toList)))

theorem toList_row (t : Token) : (row t).toList = cells t ++ ['\n'] := by
  simp [row, cells, place]

theorem toList_render (ts : List Token) :
    (render ts).toList = (ts.map cells).flatMap (· ++ ['\n']) := by
  simp [render, String.toList_join, toList_row, List.flatMap_def, Function.comp_def]

theorem toList_padRight (width : Nat) (s : String) (rest : List Char) :
    (padRight width s).toList ++ (' ' :: rest) =
      s.toList ++ (List.replicate (width - s.length + 1) ' ' ++ rest) := by
  simp [padRight, Text.blanks, List.replicate_succ']

theorem isRow_cells (t : Token) : IsRow (cells t) t := by
  have hname : t.kind.name.length ≤ 22 := by cases t.kind <;> decide
  refine ⟨8 - (place t).length + 1, 22 - t.kind.name.length + 1, ?_, by omega, by omega⟩
  rw [cells, toList_padRight, toList_padRight]

theorem not_mem_place (t : Token) : '\n' ∉ (place t).toList := by
  simp [place, Text.not_mem_toDigits]

theorem not_mem_name (k : Token.Kind) : '\n' ∉ k.name.toList := by
  cases k <;> decide

theorem count_row {row : List Char} {t : Token} (h : IsRow row t) :
    row.count '\n' = t.text.toList.count '\n' := by
  obtain ⟨m, n, rfl, -, -⟩ := h
  simp [List.count_eq_zero_of_not_mem (not_mem_place t),
    List.count_eq_zero_of_not_mem (not_mem_name t.kind), List.count_replicate]

def texts (ts : List Token) : List Char := ts.flatMap (·.text.toList)

theorem count_rows {rows : List (List Char)} {ts : List Token} (h : List.Forall₂ IsRow rows ts) :
    (rows.flatMap (· ++ ['\n'])).count '\n' = ts.length + (texts ts).count '\n' := by
  induction h with
  | nil => rfl
  | @cons row t rows ts hrow _ ih =>
    have htexts : texts (t :: ts) = t.text.toList ++ texts ts := List.flatMap_cons
    rw [List.flatMap_cons, List.count_append, List.count_append, ih, count_row hrow, htexts,
      List.count_append, List.count_singleton_self, List.length_cons]
    omega

theorem forall₂_cells (ts : List Token) : List.Forall₂ IsRow (ts.map cells) ts := by
  induction ts with
  | nil => exact .nil
  | cons t ts ih => exact .cons (isRow_cells t) ih

theorem count_render (ts : List Token) :
    (render ts).toList.count '\n' = ts.length + (texts ts).count '\n' := by
  rw [toList_render, count_rows (forall₂_cells ts)]

theorem oneLineEach_render_iff {ts : List Token} :
    OneLineEach (render ts) ts ↔ ∀ t ∈ ts, '\n' ∉ t.text.toList := by
  constructor
  · rintro ⟨rows, hlines, hrows⟩ t ht
    have hlength := Text.length_lines (render ts).toList
    rw [hlines, List.length_append, hrows.length_eq, count_render] at hlength
    have hcount : (texts ts).count '\n' = 0 := by
      rw [List.length_singleton] at hlength
      omega
    exact fun hfeed => List.count_eq_zero.1 hcount (List.mem_flatMap_of_mem ht hfeed)
  · intro h
    refine ⟨ts.map cells, ?_, forall₂_cells ts⟩
    rw [toList_render]
    refine Text.lines_flatMap fun row hrow => ?_
    obtain ⟨t, ht, rfl⟩ := List.mem_map.1 hrow
    rw [← List.count_eq_zero, count_row (isRow_cells t)]
    exact List.count_eq_zero_of_not_mem (h t ht)

/-- What the table of tokens of a source is. -/
structure Tabulates (table : String) (ts : List Token) : Prop where
  rows : ∃ rows, table.toList = rows.flatMap (· ++ ['\n']) ∧ List.Forall₂ IsRow rows ts
  -- Every line feed in a text makes one line more.
  length_lines : (Text.lines table.toList).length = ts.length + (texts ts).count '\n' + 1
  oneLineEach_iff : OneLineEach table ts ↔ ∀ t ∈ ts, '\n' ∉ t.text.toList
  strings : ∀ t ∈ ts, '\n' ∈ t.text.toList → t.kind = .string

end TokenTable

theorem tokenTable_eq {s : String} {ts : List Token} (h : tokenize s = .ok ts) :
    Command.tokenTable s = .ok (TokenTable.render ts) := by
  rw [Command.tokenTable, Command.tokens, h]
  rfl

/-- The table of a source has a row for each token, and these are lines if and only if no string has
a line feed in it. -/
theorem tokenTable_of_tokenize {s : String} {ts : List Token} (h : tokenize s = .ok ts) :
    ∃ table, Command.tokenTable s = .ok table ∧ TokenTable.Tabulates table ts := by
  refine ⟨_, tokenTable_eq h, ?_⟩
  constructor
  case rows => exact ⟨_, TokenTable.toList_render ts, TokenTable.forall₂_cells ts⟩
  case length_lines => rw [Text.length_lines, TokenTable.count_render]
  case oneLineEach_iff => exact TokenTable.oneLineEach_render_iff
  case strings =>
    intro t ht hfeed
    obtain ⟨x, hs, hts⟩ := Layout.exists_of_tokenize h
    have hx := Layout.valid_of_tokens hs (hts ▸ h)
    rw [← hts] at ht
    exact Layout.kind_of_mem_tokens hx ht hfeed

theorem tokenTable_two_lines : ∃ ts table, tokenize "x\n& 'y'" = .ok ts ∧
    Command.tokenTable "x\n& 'y'" = .ok table ∧ TokenTable.OneLineEach table ts := by
  have htokens : (tokenize "x\n& 'y'").toOption.map id = some
      [⟨.identifier, "x", ⟨0, 1, 1⟩⟩, ⟨.ampersand, "&", ⟨2, 2, 1⟩⟩, ⟨.string, "'y'", ⟨4, 2, 3⟩⟩,
        .atEnd ⟨7, 2, 6⟩] := by
    decide +kernel
  obtain ⟨_, hts, rfl⟩ := exists_ok_of_map htokens
  obtain ⟨table, htable, h⟩ := tokenTable_of_tokenize hts
  exact ⟨_, table, hts, htable, h.oneLineEach_iff.2 (by decide)⟩

/-- The line feed is in the string, so that two tokens are on three lines. -/
theorem tokenTable_broken_string : ∃ ts table, tokenize "'\n'" = .ok ts ∧
    Command.tokenTable "'\n'" = .ok table ∧ ts.length = 2 ∧
    table = "1:1      STRING                 '\n'\n2:2      EOF                    \n" ∧
    ¬ TokenTable.OneLineEach table ts := by
  have htokens : (tokenize "'\n'").toOption.map id = some
      [⟨.string, "'\n'", ⟨0, 1, 1⟩⟩, .atEnd ⟨3, 2, 2⟩] := by
    decide +kernel
  obtain ⟨_, hts, rfl⟩ := exists_ok_of_map htokens
  refine ⟨_, _, hts, tokenTable_eq hts, rfl, rfl, ?_⟩
  rw [TokenTable.oneLineEach_render_iff]
  decide

end RuleFormula
