import RuleFormula.Proofs.Formula

set_option autoImplicit false

namespace RuleFormula

/-- The names of a field path. The first one may be marked as global, and only then may a word of
the language stand alone. -/
def WellFormedPath : List String → Prop
  | [] => False
  | first :: names =>
    (Text.IsName first ∧ (names = [] → ¬ IsReserved first) ∨
      ∃ name, Text.IsName name ∧ first = "$" ++ name) ∧ ∀ name ∈ names, Text.IsName name

def Literal.WellFormed : Literal → Prop
  | number d => 0 ≤ d.coefficient
  | string _ | boolean _ | null => True

namespace Expr

mutual

def WellFormed : Expr → Prop
  | binary _ left right _ => left.WellFormed ∧ right.WellFormed
  | unary _ operand _ => operand.WellFormed
  | call name args _ => Text.IsName name ∧ WellFormedList args
  | literal value _ => value.WellFormed
  | field path _ => WellFormedPath path

def WellFormedList : List Expr → Prop
  | [] => True
  | e :: es => e.WellFormed ∧ WellFormedList es

end

end Expr

/-- What the text of a scanned token tells about its kind. -/
structure Scanned (t : Token) : Prop where
  isName : t.kind = .identifier → Text.IsName t.text
  isDigit : t.kind = .number → ∃ c ∈ t.text.toList.head?, c.isDigit = true

theorem Reads.scanned {cs : List Char} {ts : List Token} (h : Reads cs (ts.map Token.spelling)) :
    ∀ t ∈ ts, Scanned t := by
  generalize hs : ts.map Token.spelling = spellings at h
  induction h generalizing ts with
  | done =>
    rw [List.map_eq_nil_iff.1 hs]
    simp
  | @token cs word rest kind us _ hl _ ih =>
    obtain ⟨t, ts, rfl, ht, hts⟩ := List.map_eq_cons_iff.1 hs
    obtain ⟨rfl, htext⟩ := Prod.mk.inj ht
    intro u hu
    rcases List.mem_cons.1 hu with rfl | hu
    · constructor
      · intro hk
        rw [hk] at hl
        have hn := Lexeme.isName_of_scan hl
        rw [List.take_left] at hn
        rw [htext, Text.IsName, String.toList_ofList]
        exact hn
      · intro hk
        rw [hk] at hl
        have hd := Lexeme.isDigit_of_scan hl
        rw [List.take_left] at hd
        rw [htext, String.toList_ofList]
        exact hd
    · exact ih hts u hu

namespace Grammar

theorem Path.isName {ts : List Token} {names : List String} (p : Path ts names)
    (h : ∀ t ∈ ts, Scanned t) : ∀ name ∈ names, Text.IsName name := by
  induction p with
  | nil => simp
  | @cons point name ts names hp hn path ih =>
    simp only [List.mem_cons, forall_eq_or_imp] at h ⊢
    exact ⟨h.2.1.isName hn, ih h.2.2⟩

mutual

theorem Phrase.wellFormed {tier : Tier} {ts : List Token} {e : Expr} :
    Phrase tier ts e → (∀ t ∈ ts, Scanned t) → e.WellFormed
  | .chain _ head tail, h =>
    tail.wellFormed (fun t ht => h t (List.mem_append_right _ ht))
      (head.wellFormed fun t ht => h t (List.mem_append_left _ ht))
  | .bang _ p, h | .word _ _ p, h | .minus _ p, h => p.wellFormed fun t ht => h t (.tail _ ht)
  | .plus _ p, h => p.wellFormed fun t ht => h t (.tail _ ht)
  | .comparison p, h | .sign p, h => p.wellFormed h
  | .power b _ x, h =>
    ⟨b.wellFormed fun t ht => h t (List.mem_append_left _ ht),
      x.wellFormed fun t ht => h t (List.mem_append_right _ (.tail _ ht))⟩
  | .operand p, h => p.wellFormed h

theorem Chain.wellFormed {tier next : Tier} {ts : List Token} {left e : Expr} :
    Chain tier next ts left e → (∀ t ∈ ts, Scanned t) → left.WellFormed → e.WellFormed
  | .done, _, hl => hl
  | .more _ p tail, h, hl =>
    tail.wellFormed (fun t ht => h t (List.mem_append_right _ ht))
      ⟨hl, p.wellFormed fun t ht => h t (List.mem_append_left _ (.tail _ ht))⟩

theorem Operand.wellFormed {ts : List Token} {e : Expr} :
    Operand ts e → (∀ t ∈ ts, Scanned t) → e.WellFormed
  | @Operand.number t d hk hd, h => by
    obtain ⟨c, hc, hdigit⟩ := (h t (.head _)).isDigit hk
    obtain ⟨cs, hcs⟩ := List.head?_eq_some_iff.1 hc
    exact Decimal.coefficient_nonneg_of_read hcs hdigit hd
  | .string _, _ | .boolean .., _ | .booleanWord .., _ | .null _, _ => trivial
  | .path hk path hr, h =>
    ⟨.inl ⟨(h _ (.head _)).isName hk, hr⟩, path.isName fun t ht => h t (.tail _ ht)⟩
  | .global _ hn path, h =>
    ⟨.inr ⟨_, (h _ (.tail _ (.head _))).isName hn, rfl⟩,
      path.isName fun t ht => h t (.tail _ (.tail _ ht))⟩
  | .emptyCall hk _ _, h => ⟨(h _ (.head _)).isName hk, trivial⟩
  | .call hk _ args, h =>
    ⟨(h _ (.head _)).isName hk, args.wellFormed fun t ht => h t (.tail _ (.tail _ ht))⟩
  | .group _ p _, h =>
    p.wellFormed fun t ht => h t (List.mem_append_left _ (.tail _ ht))

theorem Arguments.wellFormed {ts : List Token} {es : List Expr} :
    Arguments ts es → (∀ t ∈ ts, Scanned t) → Expr.WellFormedList es
  | .last p _, h => ⟨p.wellFormed fun t ht => h t (List.mem_append_left _ ht), trivial⟩
  | .more p _ rest, h =>
    ⟨p.wellFormed fun t ht => h t (List.mem_append_left _ ht),
      rest.wellFormed fun t ht => h t (List.mem_append_right _ (.tail _ ht))⟩

end

end Grammar

theorem Expr.wellFormed_of_parseFormula {limit : Nat} {s : String} {e : Expr}
    (h : parseFormula limit s = .ok e) : e.WellFormed := by
  obtain ⟨body, p, -, hr⟩ := exists_phrase_of_parseFormula h
  exact p.wellFormed hr.scanned

end RuleFormula
