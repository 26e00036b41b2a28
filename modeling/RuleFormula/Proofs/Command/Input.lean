import RuleFormula.Command.Run
import RuleFormula.Proofs.Command.Arguments
import RuleFormula.Proofs.Text.Lines
import RuleFormula.Proofs.Token.Trailing

/-! A formula read from the input against the same formula on the command line. The line ends that
are taken off the input are blanks behind the formula, so that no tree depends on them. -/
set_option autoImplicit false

namespace RuleFormula

section Except

variable {ε α β : Type} {x y : Except ε α}

theorem toOption_map (f : α → β) (x : Except ε α) : (x.map f).toOption = x.toOption.map f := by
  cases x <;> rfl

theorem toOption_eq_of_iff (h : ∀ a, x = .ok a ↔ y = .ok a) : x.toOption = y.toOption := by
  cases x with
  | ok a => rw [(h a).1 rfl]
  | error e =>
    cases y with
    | ok b => cases (h b).2 rfl
    | error d => rfl

end Except

namespace Command

def isLineEnd (c : Char) : Bool := c == '\r' || c == '\n'

theorem isLineEnd_iff {c : Char} : isLineEnd c = true ↔ c = '\r' ∨ c = '\n' := by
  simp [isLineEnd]

theorem isBlank_of_isLineEnd {c : Char} (h : isLineEnd c = true) : Text.isBlank c = true := by
  rcases isLineEnd_iff.1 h with rfl | rfl <;> decide

/-- The formula without the line ends behind it. -/
def trim (f : String) : String := String.ofList (Text.dropTrailing isLineEnd f.toList)

theorem formulaOfInput_toUTF8 (s : String) : formulaOfInput s.toUTF8 = .ok (trim s) := by
  have hread : String.fromUTF8? s.toUTF8 = some s := by
    rw [String.fromUTF8?, String.toUTF8_eq_toByteArray, dif_pos s.isValidUTF8]
    rfl
  rw [formulaOfInput, hread]
  rfl

variable {f r : String}

theorem trim_append (hr : ∀ c ∈ r.toList, c = '\r' ∨ c = '\n') : trim (f ++ r) = trim f := by
  have hback : ∀ c ∈ r.toList, isLineEnd c = true := fun c hc => isLineEnd_iff.2 (hr c hc)
  rw [trim, String.toList_append, Text.dropTrailing_append hback, trim]

theorem trim_eq_self (h : ∀ c ∈ f.toList.getLast?, c ≠ '\r' ∧ c ≠ '\n') : trim f = f := by
  have hlast : ∀ c ∈ f.toList.getLast?, isLineEnd c = false := fun c hc => by
    simpa [isLineEnd] using h c hc
  rw [trim, Text.dropTrailing_eq_self hlast, String.ofList_toList]

theorem exists_trim_append (f : String) : ∃ w, trim f ++ w = f ∧
    ∀ c ∈ w.toList, Text.isBlank c = true := by
  obtain ⟨back, hcut, hback⟩ := Text.exists_dropTrailing_append isLineEnd f.toList
  refine ⟨String.ofList back, ?_, fun c hc => ?_⟩
  · rw [trim, ← String.ofList_append, ← hcut, String.ofList_toList]
  · rw [String.toList_ofList] at hc
    exact isBlank_of_isLineEnd (hback c hc)

theorem tree_trim (limit : Nat) (f : String) :
    (tree limit (trim f)).toOption = (tree limit f).toOption := by
  obtain ⟨w, hf, hw⟩ := exists_trim_append f
  refine toOption_eq_of_iff fun e => ?_
  rw [tree, tree, mapError_eq_ok, mapError_eq_ok,
    ← parseFormula_append_blank limit (trim f) hw e, hf]

theorem output_trim {verb : Verb} (hverb : verb ≠ .tokenize) (switch : Bool) (limit : Nat)
    (f : String) :
    (output verb switch limit (trim f)).toOption = (output verb switch limit f).toOption := by
  cases verb with
  | tokenize => exact absurd rfl hverb
  | parse => simp only [output, treeJson, toOption_map, tree_trim]
  | check => simp only [output, check, toOption_map, tree_trim]

theorem exit_of_toOption_eq {x y : Except CommandError String} (h : x.toOption = y.toOption) :
    (exit x).code = (exit y).code ∧ (exit x).stdout = (exit y).stdout := by
  cases x <;> cases y <;> cases h <;> exact ⟨rfl, rfl⟩

/-- What a command line and an input lead to. Without an answer the command line is used wrongly. -/
def outcome (args : List String) (input : Option ByteArray) : Option Exit :=
  (Request.ofArguments? args).map (Request.answer input)

/-- A formula from the input, with any line ends behind it, is answered as on the command line. -/
theorem outcome_of_input {args : List String} (hend : "--" ∉ args) (f : String) {r : String}
    (hr : ∀ c ∈ r.toList, c = '\r' ∨ c = '\n') (input : Option ByteArray) :
    (outcome args (some (f ++ r).toUTF8) = none → outcome (args ++ ["--", f]) input = none) ∧
    ∀ verb switch limit, Request.ofArguments? args = some (.run verb switch limit none) →
      ∃ given piped, outcome (args ++ ["--", f]) input = some given ∧
        outcome args (some (f ++ r).toUTF8) = some piped ∧
        (verb ≠ .tokenize → given.code = piped.code ∧ given.stdout = piped.stdout) ∧
        ((∀ c ∈ f.toList.getLast?, c ≠ '\r' ∧ c ≠ '\n') → given = piped) := by
  have hgiven : Request.ofArguments? (args ++ ["--", f]) =
      (Request.ofArguments? args).bind (·.give? f) := readRequest?_append none hend f
  constructor
  · intro h
    rw [outcome, Option.map_eq_none_iff] at h
    rw [outcome, hgiven, h]
    rfl
  · intro verb switch limit hargs
    have hpiped : formula none (some (f ++ r).toUTF8) = .ok (trim f) := by
      rw [formula, formulaOfInput_toUTF8, trim_append hr]
    rw [hargs] at hgiven
    refine ⟨exit (output verb switch limit f), exit (output verb switch limit (trim f)),
      ?_, ?_, ?_, ?_⟩
    · rw [outcome, hgiven]
      rfl
    · rw [outcome, hargs, Option.map_some, Request.answer, hpiped]
      rfl
    · exact fun hverb => exit_of_toOption_eq (output_trim hverb switch limit f).symm
    · exact fun hlast => by rw [trim_eq_self hlast]

theorem outcome_of_input_line_ends : ∃ given piped,
    outcome ["--max-depth", "2", "check", "--", "a\n & b\r\n"] none = some given ∧
    outcome ["--max-depth", "2", "check"] (some ("a\n & b\r\n" ++ "\n\r").toUTF8) = some piped ∧
    piped.code = given.code ∧ piped.stdout = given.stdout ∧
    given = ⟨0, "Syntax is valid\nCanonical: (a & b)\nFields: a, b\n", ""⟩ := by
  have hargs : Request.ofArguments? ["--max-depth", "2", "check"] =
      some (.run .check false 2 none) := by
    decide
  have hvalue : outcome ["--max-depth", "2", "check", "--", "a\n & b\r\n"] none =
      some ⟨0, "Syntax is valid\nCanonical: (a & b)\nFields: a, b\n", ""⟩ := by
    decide +kernel
  have hends : ∀ c ∈ "\n\r".toList, c = '\r' ∨ c = '\n' := by simp
  have hend : "--" ∉ ["--max-depth", "2", "check"] := by decide
  have hanswers := outcome_of_input hend "a\n & b\r\n" hends none
  obtain ⟨given, piped, hgiven, hpiped, hsame, -⟩ := hanswers.2 .check false 2 hargs
  obtain ⟨hcode, hstdout⟩ := hsame (by decide)
  exact ⟨given, piped, hgiven, hpiped, hcode.symm, hstdout.symm,
    Option.some.inj (hgiven.symm.trans hvalue)⟩

end Command

end RuleFormula
