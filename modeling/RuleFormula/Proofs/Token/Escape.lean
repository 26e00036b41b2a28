import RuleFormula.Grammar.Stream
import RuleFormula.Proofs.Token.Lexical

set_option autoImplicit false

namespace RuleFormula

namespace Quoted

/-- The text behind a quote, without the quote at its end if it has one. -/
inductive Inside (quote : Char) : List Char → List Char → Prop
  | closed {text : List Char} : Inside quote (text ++ [quote]) text
  | unclosed {text : List Char} (h : text.getLast? ≠ some quote) : Inside quote text text

def units : List Char → List (List Char)
  | [] => []
  | '\\' :: c :: cs => ['\\', c] :: units cs
  | c :: cs => [c] :: units cs

/-- What a unit stands for, if `unknown` tells it of a pair that is no escape. -/
def meaning (unknown : Char → List Char) : List Char → List Char
  | ['\\', 'n'] => ['\n']
  | ['\\', 't'] => ['\t']
  | ['\\', 'r'] => ['\r']
  | ['\\', '\''] => ['\'']
  | ['\\', '"'] => ['"']
  | ['\\', '\\'] => ['\\']
  | ['\\', c] => unknown c
  | unit => unit

def verbatim (text : List Char) : List Char := (units text).flatMap (meaning fun c => ['\\', c])

def isUnknown : List Char → Bool
  | ['\\', c] => decide (c ∉ ['n', 't', 'r', '\'', '"', '\\'])
  | _ => false

theorem inside_body (quote : Char) (cs : List Char) : Inside quote cs (body (quote :: cs)) := by
  by_cases h : cs.getLast? = some quote
  · obtain ⟨text, rfl⟩ := List.getLast?_eq_some_iff.1 h
    rw [body, if_pos h, List.dropLast_concat]
    exact .closed
  · rw [body, if_neg h]
    exact .unclosed h

theorem flatten_units (text : List Char) : (units text).flatten = text := by
  fun_induction units text with
  | case1 => rfl
  | case2 c cs ih => simp [ih]
  | case3 c cs _ ih => simp [ih]

theorem meaning_pair (unknown : Char → List Char) (c : Char) :
    meaning unknown ['\\', c] = ((escape? c).map ([·])).getD (unknown c) := by
  unfold escape?
  split <;> simp_all [meaning]

theorem isUnknown_pair (c : Char) : isUnknown ['\\', c] = (escape? c).isNone := by
  unfold escape?
  split <;> simp_all [isUnknown]

theorem pair_or_plain (unit : List Char) : (∃ c, unit = ['\\', c]) ∨
    isUnknown unit = false ∧ ∀ unknown, meaning unknown unit = unit := by
  by_cases h : ∃ c, unit = ['\\', c]
  · exact .inl h
  · refine .inr ⟨?_, fun unknown => ?_⟩
    · unfold isUnknown
      split
      · exact absurd ⟨_, rfl⟩ h
      · rfl
    · unfold meaning
      split
      case h_8 => rfl
      all_goals exact absurd ⟨_, rfl⟩ h

theorem decodeBody_eq (text : List Char) :
    decodeBody text = (units text).flatMap (meaning fun c => [c]) := by
  fun_induction units text with
  | case1 => rfl
  | case2 c cs ih =>
    rw [decodeBody, List.flatMap_cons, meaning_pair, ih]
    cases escape? c <;> rfl
  | case3 c cs hc ih =>
    have hmeaning : meaning (fun c => [c]) [c] = [c] := by simp [meaning]
    rw [decodeBody, List.flatMap_cons, hmeaning, ih, List.singleton_append]
    exact hc

theorem length_meaning (unit : List Char) : (meaning (fun c => ['\\', c]) unit).length =
    (meaning (fun c => [c]) unit).length + (isUnknown unit).toNat := by
  rcases pair_or_plain unit with ⟨c, rfl⟩ | ⟨hknown, hplain⟩
  · rw [meaning_pair, meaning_pair, isUnknown_pair]
    cases escape? c <;> rfl
  · rw [hplain, hplain, hknown]
    rfl

theorem meaning_of_known {unit : List Char} (h : isUnknown unit = false) (f g : Char → List Char) :
    meaning f unit = meaning g unit := by
  rcases pair_or_plain unit with ⟨c, rfl⟩ | ⟨-, hplain⟩
  · rw [isUnknown_pair, Option.isNone_eq_false_iff, Option.isSome_iff_exists] at h
    obtain ⟨d, hd⟩ := h
    rw [meaning_pair, meaning_pair, hd]
    rfl
  · rw [hplain, hplain]

theorem length_verbatim (text : List Char) :
    (verbatim text).length = (decodeBody text).length + (units text).countP isUnknown := by
  rw [decodeBody_eq, verbatim]
  induction units text with
  | nil => rfl
  | cons unit rest ih =>
    rw [List.flatMap_cons, List.flatMap_cons, List.length_append, List.length_append, ih,
      length_meaning, List.countP_cons]
    cases isUnknown unit <;> simp <;> omega

theorem decodeBody_eq_verbatim_iff {text : List Char} :
    decodeBody text = verbatim text ↔ ∀ unit ∈ units text, isUnknown unit = false := by
  constructor
  · intro h
    have hlength := length_verbatim text
    rw [← h] at hlength
    have hcount : (units text).countP isUnknown = 0 := by omega
    simpa [List.countP_eq_zero] using hcount
  · intro h
    have hmeanings := List.map_congr_left fun unit hunit =>
      meaning_of_known (h unit hunit) (fun c => [c]) fun c => ['\\', c]
    rw [decodeBody_eq, verbatim, List.flatMap_def, List.flatMap_def, hmeanings]

/-- What becomes of a quoted text. -/
structure Decodes (raw value : String) (text : List Char) : Prop where
  cut : (units text).flatten = text
  value_eq : value = String.ofList ((units text).flatMap (meaning fun c => [c]))
  -- `isUnknown` counts the backslashes that are lost.
  lost : (verbatim text).length = value.length + (units text).countP isUnknown
  verbatim_iff : value = String.ofList (verbatim text) ↔ ∀ unit ∈ units text, isUnknown unit = false
  -- As a token by itself the text is a string of this value.
  token : ∀ limit l m, parseTokens (limit + 1) [⟨.string, raw, l⟩, .atEnd m] =
    .ok (.literal (.string value) l.offset)

/-- Any text with a first character is decoded unit by unit, and a pair that is no escape loses its
backslash. -/
theorem decode_units (quote : Char) (cs : List Char) : ∃ text, Inside quote cs text ∧
    Decodes (String.ofList (quote :: cs)) (decode (String.ofList (quote :: cs))) text := by
  have hdecode : decode (String.ofList (quote :: cs)) =
      String.ofList (decodeBody (body (quote :: cs))) := by
    rw [decode, String.toList_ofList]
  refine ⟨body (quote :: cs), inside_body quote cs, ?_⟩
  rw [hdecode]
  constructor
  case cut => exact flatten_units _
  case value_eq => rw [decodeBody_eq]
  case lost => rw [String.length_ofList, length_verbatim]
  case verbatim_iff => rw [String.ofList_inj, decodeBody_eq_verbatim_iff]
  case token =>
    intro limit l m
    rw [← hdecode]
    rfl

/-- The pair is no escape, and its backslash is lost. -/
theorem decode_unknown_escape : Inside '\'' ['\\', 'q', '\''] ['\\', 'q'] ∧
    verbatim ['\\', 'q'] = ['\\', 'q'] ∧
    decode (String.ofList ('\'' :: ['\\', 'q', '\''])) ≠ String.ofList (verbatim ['\\', 'q']) := by
  have hinside : Inside '\'' (['\\', 'q'] ++ ['\'']) ['\\', 'q'] := .closed
  exact ⟨hinside, by decide, by decide⟩

end Quoted

end RuleFormula
