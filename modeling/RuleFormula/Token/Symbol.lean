import RuleFormula.Token.Basic

set_option autoImplicit false

namespace RuleFormula.Symbol

/-- Two characters come before one, so that the longest spelling is found first. -/
def spellings : List (List Char × Token.Kind) :=
  [(['=', '='], .equals), (['!', '='], .notEquals), (['<', '='], .lessEqual),
    (['<', '>'], .notEquals), (['>', '='], .greaterEqual), (['&', '&'], .and), (['|', '|'], .or),
    (['+'], .plus), (['-'], .minus), (['*'], .star), (['/'], .slash), (['^'], .caret),
    (['%'], .percent), (['('], .leftParen), ([')'], .rightParen), ([','], .comma), (['.'], .dot),
    (['$'], .fieldMarker), (['='], .equals), (['!'], .not), (['<'], .less), (['>'], .greater),
    (['&'], .ampersand)]

def scan? (cs : List Char) : Option (Token.Kind × Nat) :=
  (spellings.find? fun s => s.1.isPrefixOf cs).map fun s => (s.2, s.1.length)

theorem length_pos {s : List Char × Token.Kind} (h : s ∈ spellings) : 0 < s.1.length := by
  have hall : ∀ s ∈ spellings, 0 < s.1.length := by decide
  exact hall s h

theorem pos_of_scan? {cs : List Char} {kind : Token.Kind} {width : Nat}
    (h : scan? cs = some (kind, width)) : 0 < width := by
  obtain ⟨s, hs, he⟩ := Option.map_eq_some_iff.1 h
  cases he
  exact length_pos (List.mem_of_find?_eq_some hs)

end RuleFormula.Symbol
