import RuleFormula.Proofs.Places
import RuleFormula.Proofs.Text.Lines
import RuleFormula.Proofs.Token.Rejected
import RuleFormula.Report.Problem

set_option autoImplicit false

namespace RuleFormula

theorem Lexeme.Faulty.place_eq {cs : List Char} {m : String} {place : Nat} (h : Faulty cs m place) :
    place = 0 ∨ cs[place]? = some '\\' := by
  cases h with
  | @escape quote c body cs _ _ _ =>
    refine .inr ?_
    rw [List.getElem?_cons_succ, List.getElem?_append_right (Nat.le_refl _), Nat.sub_self]
    rfl
  | comment | unclosed | backslash | malformed | inexact | bar | unexpected => exact .inl rfl

namespace Cursor

variable {c d : Cursor} {cs : List Char} {x : Char}

theorem On.getElem?_eq (h : c.On cs) (k : Nat) : cs[c.location.offset + k]? = c.rest[k]? := by
  rw [h.rest_eq, List.getElem?_drop]

theorem Produces.on {ts : List Token} (h : c.Produces ts d) (hc : c.On cs) : d.On cs := by
  induction h with
  | none c => exact hc
  | token hnext _ _ ih =>
    have hd := hc.next.1
    rw [hnext] at hd
    exact ih hd

theorem isBlank_of_skipTrivia (c : Cursor) (hx : c.skipTrivia.rest[0]? = some x) :
    Text.isBlank x = false := by
  have hsplit := Trivia.split_rest c.rest
  change Trivia.split c.skipTrivia.rest = ([], c.skipTrivia.rest) at hsplit
  cases hrest : c.skipTrivia.rest with
  | nil =>
    rw [hrest] at hx
    cases hx
  | cons y rest =>
    rw [hrest] at hx hsplit
    cases hx
    rw [Bool.eq_false_iff]
    intro hb
    have hgap := @Trivia.gap_eq_nil [x] rest hsplit (.blank hb .nil)
    cases hgap

theorem location_of_next {t : Token} (h : c.next.1 = .ok t) :
    t.location = c.skipTrivia.location := by
  obtain ⟨width, -, ht, -⟩ | ⟨-, ht, -⟩ := next_eq_ok h
  · rw [ht]
  · rw [ht]
    rfl

theorem On.visible_token (h : c.On cs) {t : Token} (ht : c.next.1 = .ok t)
    (hx : cs[t.location.offset]? = some x) : Text.isBlank x = false := by
  have hrest := h.skipTrivia.getElem?_eq 0
  rw [Nat.add_zero, ← location_of_next ht, hx] at hrest
  exact c.isBlank_of_skipTrivia hrest.symm

theorem On.visible_error (h : c.On cs) {e : LexError} (he : c.next.1 = .error e)
    (hx : cs[e.location.offset]? = some x) : Text.isBlank x = false := by
  obtain ⟨place, hfaulty, hlocation⟩ := exists_faulty_of_next he
  rw [hlocation, Location.offset_advance, List.length_take_of_le (Nat.le_of_lt hfaulty.place_lt),
    h.skipTrivia.getElem?_eq] at hx
  rcases hfaulty.place_eq with rfl | hplace
  · exact c.isBlank_of_skipTrivia hx
  · rw [hplace] at hx
    cases hx
    decide

end Cursor

theorem Reported.visible {s : String} {l : Location} (h : Reported s l) {x : Char}
    (hx : s.toList[l.offset]? = some x) : Text.isBlank x = false := by
  have hstart := Cursor.ofSource_on s
  have htoken {ts : List Token} {t : Token} (hts : tokenize s = .ok ts) (ht : t ∈ ts)
      (hx : s.toList[t.location.offset]? = some x) : Text.isBlank x = false := by
    obtain ⟨us, d, hd, hnext⟩ := Cursor.exists_produces_of_mem hts ht
    exact (hd.on hstart).visible_token hnext hx
  cases h with
  | token h ht => exact htoken h ht hx
  | lexError h =>
    obtain ⟨us, d, hd, hnext⟩ := Cursor.exists_produces_of_error h
    exact (hd.on hstart).visible_error hnext hx
  | nextToken h ht => exact h.on.visible_token ht hx
  | nextError h he => exact h.on.visible_error he hx
  | parseError h he hl =>
    obtain ⟨⟨t, ht, hloc⟩, -⟩ := parse_error_of_tokenize h he
    obtain rfl := Option.some.inj (hl.symm.trans hloc)
    exact htoken h ht hx

theorem exists_reported_of_parseFormula {limit : Nat} {s : String} {E : FormulaError}
    (h : parseFormula limit s = .error E) : ∃ l, E.problem.location = some l ∧ Reported s l := by
  unfold parseFormula at h
  cases hts : tokenize s with
  | error e =>
    rw [hts] at h
    cases h
    exact ⟨e.location, rfl, .lexError hts⟩
  | ok ts =>
    rw [hts] at h
    change (parseTokens limit ts).mapError FormulaError.parse = _ at h
    cases hp : parseTokens limit ts with
    | ok e =>
      rw [hp] at h
      cases h
    | error e =>
      rw [hp] at h
      cases h
      obtain ⟨⟨t, -, hl⟩, -⟩ := parse_error_of_tokenize hts hp
      exact ⟨t.location, hl, .parseError hts hp hl⟩

namespace Problem

def sourceRow (l : Location) (text : List Char) : String :=
  "  " ++ l.line.repr ++ " | " ++ String.ofList text

def caretRow (l : Location) : String :=
  "  " ++ Text.blanks l.line.repr.length ++ " | " ++ Text.blanks (l.column - 1) ++ "^"

/-- What is shown of a problem at a place in a source. The place is on `line`, and `text` is
shown of it. -/
structure Shown (source : String) (p : Problem) (l : Location) (line text : List Char) : Prop where
  place : p.location = some l
  -- The line is the one of this number, and has the place as far behind its start as the caret is.
  onLine : Text.OnLine source.toList l.offset line (l.column - 1) ∧ 1 ≤ l.line ∧
    (Text.lines source.toList)[l.line - 1]? = some line
  trimmed : (∃ k, line = text ++ List.replicate k '\r') ∧ text.getLast? ≠ some '\r'
  rendered : p.render source = p.toText ++ "\n" ++ sourceRow l text ++ "\n" ++ caretRow l
  rows : Text.lines (p.render source).toList =
    Text.lines p.toText.toList ++ [(sourceRow l text).toList, (caretRow l).toList]
  -- The character above the caret is the one at the place.
  caret : l.offset < source.length → ∃ c, source.toList[l.offset]? = some c ∧
    text[l.column - 1]? = some c ∧
    (sourceRow l text).toList[(caretRow l).length - 1]? = some c
  -- At the end of the source the caret is behind all of the last line.
  ending : l.offset = source.length →
    l.column - 1 = line.length ∧ (Text.lines source.toList).getLast? = some line

variable {source : String} {p : Problem} {l : Location} {line text : List Char}

theorem sourceLine_eq {n : Nat} (hn : 1 ≤ n) (h : (Text.lines source.toList)[n - 1]? = some line) :
    sourceLine source n = String.ofList (Text.dropTrailing (· == '\r') line) := by
  obtain ⟨index, rfl⟩ : ∃ index, n = index + 1 := ⟨n - 1, by omega⟩
  rw [Nat.add_sub_cancel] at h
  rw [sourceLine, h, Option.getD_some]

theorem render_eq (hplace : p.location = some l)
    (h : sourceLine source l.line = String.ofList text) :
    p.render source = p.toText ++ "\n" ++ sourceRow l text ++ "\n" ++ caretRow l := by
  have hbreak : "\n  " = "\n" ++ "  " := by decide
  simp only [render, hplace, h, sourceRow, caretRow, hbreak, String.append_assoc]

theorem not_mem_sourceRow (h : '\n' ∉ text) : '\n' ∉ (sourceRow l text).toList := by
  simp [sourceRow, h, Text.not_mem_toDigits]

theorem not_mem_caretRow : '\n' ∉ (caretRow l).toList := by
  simp [caretRow, Text.blanks]

theorem getElem?_sourceRow :
    (sourceRow l text).toList[(caretRow l).length - 1]? = text[l.column - 1]? := by
  have hcaret : "^".length = 1 := rfl
  have hlength : (caretRow l).length - 1 =
      ("  " ++ l.line.repr ++ " | ").toList.length + (l.column - 1) := by
    simp only [caretRow, Text.blanks, String.length_toList, String.length_append,
      String.length_ofList, List.length_replicate]
    omega
  rw [hlength, sourceRow, String.toList_append, String.toList_ofList,
    List.getElem?_append_right (Nat.le_add_right ..), Nat.add_sub_cancel_left]

/-- A problem at a visible character is shown with the caret below it. -/
theorem shown_of_visible (hplace : p.location = some l) (hin : l.In source.toList)
    (hvisible : ∀ c, source.toList[l.offset]? = some c → Text.isBlank c = false) :
    ∃ line text, p.Shown source l line text := by
  obtain ⟨line, hon, hnumber, hline⟩ := hin.exists_line
  obtain ⟨k, hcut, hlast⟩ := Text.exists_returns line
  have hrendered := render_eq hplace (sourceLine_eq hnumber hline)
  have hbreak : '\n' ∉ Text.dropTrailing (· == '\r') line := fun hm => by
    have hmem := hon.not_mem
    rw [hcut] at hmem
    exact hmem (List.mem_append_left _ hm)
  refine ⟨line, Text.dropTrailing (· == '\r') line, ?_⟩
  constructor
  case place => exact hplace
  case onLine => exact ⟨hon, hnumber, hline⟩
  case trimmed => exact ⟨⟨k, hcut⟩, hlast⟩
  case rendered => exact hrendered
  case rows =>
    rw [hrendered, Text.lines_toList_append, Text.lines_toList_append,
      Text.lines_of_not_mem (not_mem_sourceRow hbreak), Text.lines_of_not_mem not_mem_caretRow,
      List.append_assoc, List.singleton_append]
  case caret =>
    intro hlt
    rw [← String.length_toList] at hlt
    have hc := List.getElem?_eq_getElem hlt
    have hblank := hvisible _ hc
    have hfeed : source.toList[l.offset] ≠ '\n' := fun he => by rw [he] at hblank; cases hblank
    have hreturn : source.toList[l.offset] ≠ '\r' := fun he => by rw [he] at hblank; cases hblank
    have htext := Text.getElem?_dropTrailing (hon.getElem?_eq hc hfeed) hreturn
    exact ⟨_, hc, htext, by rw [getElem?_sourceRow, htext]⟩
  case ending =>
    intro hend
    exact hon.at_end (by rw [hend, String.length_toList])

end Problem

/-- The error of a source is shown as its message and two lines: the line of the source that it is
in, and a caret below the character that it is at. -/
theorem parseFormula_error_shown {limit : Nat} {s : String} {E : FormulaError}
    (h : parseFormula limit s = .error E) : ∃ l line text, E.problem.Shown s l line text := by
  obtain ⟨l, hl, hreported⟩ := exists_reported_of_parseFormula h
  exact ⟨l, Problem.shown_of_visible hl hreported.location_in fun c hc => hreported.visible hc⟩

theorem parseFormula_error_shown_return : ∃ E line text,
    parseFormula 128 "a +\r\n* b\r" = .error E ∧
    E.problem.Shown "a +\r\n* b\r" ⟨5, 2, 1⟩ line text ∧
    E.problem.render "a +\r\n* b\r" =
    "Parser error: Expected an expression, found '*' at line 2, column 1\n  2 | * b\n    | ^" := by
  have hfault : (match parseFormula 128 "a +\r\n* b\r" with
      | .error E => some (E.problem.location, E.problem.render "a +\r\n* b\r")
      | .ok _ => none) = some (some ⟨5, 2, 1⟩,
    "Parser error: Expected an expression, found '*' at line 2, column 1\n  2 | * b\n    | ^") := by
    decide +kernel
  split at hfault
  next E hE =>
    obtain ⟨hlocation, hrender⟩ := Prod.mk.inj (Option.some.inj hfault)
    obtain ⟨l, line, text, hshown⟩ := parseFormula_error_shown hE
    obtain rfl := Option.some.inj (hshown.place.symm.trans hlocation)
    exact ⟨E, line, text, hE, hshown, hrender⟩
  next => cases hfault

end RuleFormula
