import RuleFormula.Proofs.Expr.Shape
import RuleFormula.Proofs.Expr.WellFormed

/-! The tokens of canonical formulas. Every node has its tokens, whatever stands around it, since
canonical formulas put a blank, a comma, a parenthesis or nothing behind an operand. -/
set_option autoImplicit false

namespace RuleFormula

def BinaryOp.kind : BinaryOp → Token.Kind
  | add => .plus
  | subtract => .minus
  | multiply => .star
  | divide => .slash
  | power => .caret
  | modulo => .percent
  | equal => .equals
  | notEqual => .notEquals
  | lessThan => .less
  | lessEqual => .lessEqual
  | greaterThan => .greater
  | greaterEqual => .greaterEqual
  | and | or => .identifier
  | concat => .ampersand

def UnaryOp.spelling : UnaryOp → Token.Kind × String
  | negate => (.minus, "-")
  | not => (.not, "!")

def Literal.spelling : Literal → Token.Kind × String
  | number d => (.number, d.toText)
  | string s => (.string, Quoted.encode s)
  | boolean true => (.identifier, "TRUE")
  | boolean false => (.identifier, "FALSE")
  | null => (.identifier, "NULL")

def spellFirst (first : String) : List (Token.Kind × String) :=
  match first.toList with
  | '$' :: name => [(.fieldMarker, "$"), (.identifier, String.ofList name)]
  | _ => [(.identifier, first)]

def spellNames (names : List String) : List (Token.Kind × String) :=
  names.flatMap fun name => [(.dot, "."), (.identifier, name)]

def spellPath : List String → List (Token.Kind × String)
  | [] => []
  | first :: names => spellFirst first ++ spellNames names

namespace Expr

mutual

/-- The kinds and texts of the tokens of the canonical form. -/
def spelling : Expr → List (Token.Kind × String)
  | binary op left right _ =>
    (.leftParen, "(") :: (left.spelling ++ (op.kind, op.symbol) ::
      (right.spelling ++ [(.rightParen, ")")]))
  | unary op operand _ =>
    (.leftParen, "(") :: op.spelling :: (operand.spelling ++ [(.rightParen, ")")])
  | call name args _ =>
    (.identifier, name) :: (.leftParen, "(") :: (spellArgs args ++ [(.rightParen, ")")])
  | literal value _ => [value.spelling]
  | field path _ => spellPath path

def spellArgs : List Expr → List (Token.Kind × String)
  | [] => []
  | [e] => e.spelling
  | e :: es => e.spelling ++ (.comma, ",") :: spellArgs es

end

end Expr

/-- What stands behind an operand in a canonical formula. -/
def Closes (rest : List Char) : Prop := ∀ c ∈ rest.head?, c = ' ' ∨ c = ')' ∨ c = ','

theorem Closes.not_isNamePart {rest : List Char} (h : Closes rest) :
    ∀ c ∈ rest.head?, Text.isNamePart c = false := by
  intro c hc
  rcases h c hc with rfl | rfl | rfl <;> decide +kernel

theorem Closes.not_numeral {rest : List Char} (h : Closes rest) :
    ∀ c ∈ rest.head?, c.isDigit = false ∧ c ≠ '.' ∧ Text.isNameStart c = false := by
  intro c hc
  rcases h c hc with rfl | rfl | rfl <;> decide +kernel

theorem Closes.not_isNamePart_names {rest : List Char} (h : Closes rest) (names : List String) :
    ∀ c ∈ (names.flatMap (fun n => '.' :: n.toList) ++ rest).head?, Text.isNamePart c = false := by
  cases names with
  | nil => exact h.not_isNamePart
  | cons n ns =>
    intro c hc
    cases hc
    decide +kernel

theorem toList_renderPath (first : String) (names : List String) :
    (Expr.renderPath (first :: names)).toList =
      first.toList ++ names.flatMap fun n => '.' :: n.toList := by
  induction names generalizing first with
  | nil => simp [Expr.renderPath]
  | cons n ns ih =>
    have h := ih n
    simp only [Expr.renderPath, String.intercalate_cons_cons, String.toList_append] at h ⊢
    rw [h]
    simp

theorem spellFirst_of_isName {first : String} (h : Text.IsName first) :
    spellFirst first = [(.identifier, first)] := by
  unfold spellFirst
  split
  next name hn =>
    rw [Text.IsName, hn] at h
    simp only [Text.isName, Bool.and_eq_true] at h
    exact absurd h.1 (by decide +kernel)
  · rfl

theorem spellFirst_global (name : String) :
    spellFirst ("$" ++ name) = [(.fieldMarker, "$"), (.identifier, name)] := by
  simp [spellFirst]

namespace Reads

variable {rest : List Char} {ts : List (Token.Kind × String)}

theorem word {w : String} {kind : Token.Kind}
    (hl : Lexeme.scan (w.toList ++ rest) = .token kind w.toList.length) (hr : Reads rest ts) :
    Reads (w.toList ++ rest) ((kind, w) :: ts) := by
  have h := Reads.lexeme hl hr
  rwa [String.ofList_toList] at h

theorem name {name : String} (h : Text.IsName name)
    (hr : ∀ c ∈ rest.head?, Text.isNamePart c = false) (ht : Reads rest ts) :
    Reads (name.toList ++ rest) ((.identifier, name) :: ts) :=
  word (Lexeme.scan_name h hr) ht

theorem leftParen (h : Reads rest ts) : Reads ('(' :: rest) ((.leftParen, "(") :: ts) :=
  @lexeme _ ['('] rest .leftParen rfl h

theorem rightParen (h : Reads rest ts) : Reads (')' :: rest) ((.rightParen, ")") :: ts) :=
  @lexeme _ [')'] rest .rightParen rfl h

theorem comma (h : Reads rest ts) : Reads (',' :: rest) ((.comma, ",") :: ts) :=
  @lexeme _ [','] rest .comma rfl h

theorem minus (h : Reads rest ts) : Reads ('-' :: rest) ((.minus, "-") :: ts) :=
  @lexeme _ ['-'] rest .minus rfl h

/-- In front of `=` the symbol would be read as an inequality. -/
theorem not (hr : ∀ c ∈ rest.head?, c ≠ '=') (h : Reads rest ts) :
    Reads ('!' :: rest) ((.not, "!") :: ts) := by
  refine @lexeme _ ['!'] rest .not ?_ h
  cases rest with
  | nil => rfl
  | cons c rest =>
    have hc : ('=' == c) = false := by simpa using Ne.symm (hr c rfl)
    have hs : Symbol.scan? ('!' :: c :: rest) = some (.not, 1) := by
      simp [Symbol.scan?, Symbol.spellings, List.isPrefixOf, hc]
    change Lexeme.ofSymbol '!' (c :: rest) = _
    simp [Lexeme.ofSymbol, hs]

theorem binaryOp (op : BinaryOp) (h : Reads rest ts) :
    Reads (op.symbol.toList ++ ' ' :: rest) ((op.kind, op.symbol) :: ts) := by
  refine word ?_ h.space
  cases op <;> rfl

theorem literal {v : Literal} (hv : v.WellFormed) (hr : Closes rest) (h : Reads rest ts) :
    Reads (v.render.toList ++ rest) (v.spelling :: ts) := by
  have hn := hr.not_isNamePart
  cases v with
  | number d => exact word (Lexeme.scan_decimal hv hr.not_numeral) h
  | string s => exact word (Lexeme.scan_encode s rest) h
  | boolean b =>
    cases b
    · exact @name _ _ "FALSE" (by decide +kernel) hn h
    · exact @name _ _ "TRUE" (by decide +kernel) hn h
  | null => exact @name _ _ "NULL" (by decide +kernel) hn h

theorem names {names : List String} (hn : ∀ n ∈ names, Text.IsName n) (hr : Closes rest)
    (h : Reads rest ts) :
    Reads (names.flatMap (fun n => '.' :: n.toList) ++ rest) (spellNames names ++ ts) := by
  induction names with
  | nil => exact h
  | cons n ns ih =>
    simp only [List.mem_cons, forall_eq_or_imp] at hn
    have hs := name hn.1 (hr.not_isNamePart_names ns) (ih hn.2)
    simpa [spellNames] using @lexeme _ ['.'] _ .dot rfl hs

theorem path {path : List String} (hp : WellFormedPath path) (hr : Closes rest)
    (h : Reads rest ts) :
    Reads ((Expr.renderPath path).toList ++ rest) (spellPath path ++ ts) := by
  cases path with
  | nil => cases hp
  | cons first ns =>
    obtain ⟨hf, hn⟩ := hp
    have hs := names hn hr h
    have hfollow := hr.not_isNamePart_names ns
    rw [toList_renderPath, spellPath, List.append_assoc, List.append_assoc]
    rcases hf with ⟨hf, -⟩ | ⟨w, hw, rfl⟩
    · rw [spellFirst_of_isName hf]
      exact name hf hfollow hs
    · rw [spellFirst_global]
      simpa using @lexeme _ ['$'] _ .fieldMarker rfl (name hw hfollow hs)

end Reads

theorem Text.IsName.head {name : String} (h : Text.IsName name) (rest : List Char) :
    ∀ c ∈ (name.toList ++ rest).head?, Text.isNameStart c = true := by
  obtain ⟨c, hc, hs, -⟩ := Text.isName_iff.1 h
  obtain ⟨cs, hcs⟩ := List.head?_eq_some_iff.1 hc
  rw [hcs]
  intro d hd
  cases hd
  exact hs

theorem WellFormedPath.head {path : List String} (h : WellFormedPath path) (rest : List Char) :
    ∀ c ∈ ((Expr.renderPath path).toList ++ rest).head?, c ≠ '=' := by
  cases path with
  | nil => cases h
  | cons first names =>
    obtain ⟨hf, -⟩ := h
    rw [toList_renderPath, List.append_assoc]
    rcases hf with ⟨hf, -⟩ | ⟨w, -, rfl⟩
    · exact fun c hc => Text.ne_of_isNameStart (hf.head _ c hc) (by decide +kernel)
    · simp

theorem Literal.WellFormed.head {v : Literal} (h : v.WellFormed) (rest : List Char) :
    ∀ c ∈ (v.render.toList ++ rest).head?, c ≠ '=' := by
  cases v with
  | number d =>
    obtain ⟨c, cs, hcs, hc⟩ := Decimal.exists_toText h
    rw [render, hcs]
    intro x hx he
    cases hx
    subst he
    exact absurd hc (by decide)
  | string s => simp [render, Quoted.encode]
  | boolean b => cases b <;> simp [render]
  | null => simp [render]

namespace Expr

theorem WellFormed.head {e : Expr} (h : e.WellFormed) (rest : List Char) :
    ∀ c ∈ (e.render.toList ++ rest).head?, c ≠ '=' := by
  cases e with
  | binary => simp [render]
  | unary op => cases op <;> simp [render]
  | call name args p =>
    have hn := h.1.head ("(".toList ++ ((renderArgs args).toList ++ (")".toList ++ rest)))
    intro c hc
    refine Text.ne_of_isNameStart (hn c ?_) (by decide +kernel)
    simpa [render] using hc
  | literal v p =>
    have hv : v.WellFormed := h
    exact hv.head rest
  | field path p =>
    have hp : WellFormedPath path := h
    exact hp.head rest

mutual

/-- A tree in canonical form is read as its tokens, with any text behind it that closes it. -/
theorem reads_render : (e : Expr) → e.WellFormed →
    ∀ (rest : List Char) (ts : List (Token.Kind × String)),
    Closes rest → Reads rest ts → Reads (e.render.toList ++ rest) (e.spelling ++ ts)
  | binary op l r p, he, rest, ts, hr, h => by
    have hright := reads_render r he.2 (')' :: rest) _ (by simp [Closes]) h.rightParen
    have hop := (Reads.binaryOp op hright).space
    have hleft := reads_render l he.1 _ _ (by simp [Closes]) hop
    simpa [render, spelling] using hleft.leftParen
  | unary .negate e p, he, rest, ts, hr, h => by
    have hoperand := reads_render e he (')' :: rest) _ (by simp [Closes]) h.rightParen
    simpa [render, spelling, UnaryOp.spelling] using hoperand.minus.leftParen
  | unary .not e p, he, rest, ts, hr, h => by
    have hoperand := reads_render e he (')' :: rest) _ (by simp [Closes]) h.rightParen
    have hw : e.WellFormed := he
    have hnot := Reads.not (hw.head _) hoperand
    simpa [render, spelling, UnaryOp.spelling] using hnot.leftParen
  | call name args p, he, rest, ts, hr, h => by
    have hargs := reads_renderArgs args he.2 (')' :: rest) _ (by simp [Closes]) h.rightParen
    have hname := Reads.name he.1 (by simp; decide +kernel) hargs.leftParen
    simpa [render, spelling] using hname
  | literal v p, he, rest, ts, hr, h => Reads.literal he hr h
  | field path p, he, rest, ts, hr, h => Reads.path he hr h

theorem reads_renderArgs : (es : List Expr) → WellFormedList es →
    ∀ (rest : List Char) (ts : List (Token.Kind × String)), Closes rest → Reads rest ts →
      Reads ((renderArgs es).toList ++ rest) (spellArgs es ++ ts)
  | [], _, rest, ts, _, h => h
  | [e], he, rest, ts, hr, h => reads_render e he.1 rest ts hr h
  | e :: f :: es, he, rest, ts, hr, h => by
    have hes := reads_renderArgs (f :: es) he.2 rest ts hr h
    have hfirst := reads_render e he.1 _ _ (by simp [Closes]) hes.space.comma
    simpa [renderArgs, spellArgs] using hfirst

end

end Expr

end RuleFormula
