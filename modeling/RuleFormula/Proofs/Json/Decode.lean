import RuleFormula.Json.Encode
import RuleFormula.Proofs.Decimal.Text
import RuleFormula.Proofs.Expr.Equality

set_option autoImplicit false

namespace RuleFormula

theorem find?_key_eq_some_iff {α β : Type} [DecidableEq β] {items : List α} {key : α → β} {a : α}
    {b : β} (hkey : ∀ x y, key x = key y → x = y) (hall : ∀ x, x ∈ items) :
    items.find? (fun x => key x == b) = some a ↔ key a = b := by
  constructor
  · intro h
    simpa using List.find?_some h
  · rintro rfl
    cases hf : items.find? fun x => key x == key a with
    | none => simpa using List.find?_eq_none.1 hf a (hall a)
    | some x => rw [hkey x a (by simpa using List.find?_some hf)]

def BinaryOp.ofSymbol? (s : String) : Option BinaryOp := all.find? fun op => op.symbol == s

theorem BinaryOp.symbol_injective (op op' : BinaryOp) (h : op.symbol = op'.symbol) : op = op' := by
  revert h
  cases op <;> cases op' <;> decide

theorem BinaryOp.ofSymbol?_eq_some_iff {s : String} {op : BinaryOp} :
    ofSymbol? s = some op ↔ op.symbol = s :=
  find?_key_eq_some_iff symbol_injective fun op => by cases op <;> decide

def UnaryOp.ofSymbol? (s : String) : Option UnaryOp := [negate, not].find? fun op => op.symbol == s

theorem UnaryOp.symbol_injective (op op' : UnaryOp) (h : op.symbol = op'.symbol) : op = op' := by
  revert h
  cases op <;> cases op' <;> decide

theorem UnaryOp.ofSymbol?_eq_some_iff {s : String} {op : UnaryOp} :
    ofSymbol? s = some op ↔ op.symbol = s :=
  find?_key_eq_some_iff symbol_injective fun op => by cases op <;> decide

/-- Only the text that the decimal itself has is taken. -/
def Decimal.ofText? (s : String) : Option Decimal := (read s).toOption.filter fun d => d.toText == s

theorem Decimal.ofText?_eq_some_iff {s : String} {d : Decimal} :
    ofText? s = some d ↔ d.toText = s := by
  rw [ofText?, Option.filter_eq_some_iff, beq_iff_eq]
  constructor
  · exact And.right
  · rintro rfl
    rw [read_toText_signed]
    exact ⟨rfl, rfl⟩

def Literal.ofJson? : String → Json → Option Literal
  | "NUMBER", .string s => (Decimal.ofText? s).map .number
  | "STRING", .string s => some (.string s)
  | "BOOLEAN", .bool b => some (.boolean b)
  | "NULL", .null => some .null
  | _, _ => none

theorem Literal.ofJson?_eq_some_iff {name : String} {j : Json} {v : Literal} :
    ofJson? name j = some v ↔ v.typeName = name ∧ v.toJson = j := by
  constructor
  · intro h
    unfold ofJson? at h
    split at h
    · obtain ⟨d, hd, rfl⟩ := Option.map_eq_some_iff.1 h
      exact ⟨rfl, congrArg Json.string (Decimal.ofText?_eq_some_iff.1 hd)⟩
    · cases h
      exact ⟨rfl, rfl⟩
    · cases h
      exact ⟨rfl, rfl⟩
    · cases h
      exact ⟨rfl, rfl⟩
    · cases h
  · rintro ⟨rfl, rfl⟩
    cases v with
    | number d => rw [typeName, toJson, ofJson?, Decimal.ofText?_eq_some_iff.2 rfl, Option.map_some]
    | string | boolean | null => rfl

def Json.strings? : List Json → Option (List String)
  | [] => some []
  | .string s :: js => (strings? js).map (s :: ·)
  | _ => none

theorem Json.strings?_eq_some_iff {js : List Json} {names : List String} :
    strings? js = some names ↔ names.map .string = js := by
  constructor
  · intro h
    fun_induction strings? js generalizing names with
    | case1 =>
      cases h
      rfl
    | case2 s js ih =>
      obtain ⟨rest, hrest, rfl⟩ := Option.map_eq_some_iff.1 h
      rw [List.map_cons, ih hrest]
    | case3 => cases h
  · rintro rfl
    induction names with
    | nil => rfl
    | cons s names ih => rw [List.map_cons, strings?, ih, Option.map_some]

namespace Expr

mutual

def ofJson? : Json → Option Expr
  | .object [("left", left), ("operator", .string symbol), ("position", .number p),
      ("right", right), ("type", .string "binary")] => do
    return .binary (← BinaryOp.ofSymbol? symbol) (← ofJson? left) (← ofJson? right) p
  | .object [("operand", operand), ("operator", .string symbol), ("position", .number p),
      ("type", .string "unary")] => do
    return .unary (← UnaryOp.ofSymbol? symbol) (← ofJson? operand) p
  | .object [("arguments", .array args), ("name", .string name), ("position", .number p),
      ("type", .string "call")] => do
    return .call name (← ofJsonList? args) p
  | .object [("literalType", .string typeName), ("position", .number p),
      ("type", .string "literal"), ("value", value)] => do
    return .literal (← Literal.ofJson? typeName value) p
  | .object [("path", .array names), ("position", .number p), ("type", .string "field")] => do
    return .field (← Json.strings? names) p
  | _ => none

def ofJsonList? : List Json → Option (List Expr)
  | [] => some []
  | j :: js => do
    return (← ofJson? j) :: (← ofJsonList? js)

end

mutual

theorem ofJson?_toJson : (e : Expr) → ofJson? e.toJson = some e
  | binary op l r p => by
    rw [toJson, ofJson?, BinaryOp.ofSymbol?_eq_some_iff.2 rfl, ofJson?_toJson l, ofJson?_toJson r]
    rfl
  | unary op e p => by
    rw [toJson, ofJson?, UnaryOp.ofSymbol?_eq_some_iff.2 rfl, ofJson?_toJson e]
    rfl
  | call name args p => by
    rw [toJson, ofJson?, ofJsonList?_toJsonList args]
    rfl
  | literal v p => by
    rw [toJson, ofJson?, Literal.ofJson?_eq_some_iff.2 ⟨rfl, rfl⟩]
    rfl
  | field path p => by
    rw [toJson, ofJson?, Json.strings?_eq_some_iff.2 rfl]
    rfl

theorem ofJsonList?_toJsonList : (es : List Expr) → ofJsonList? (toJsonList es) = some es
  | [] => rfl
  | e :: es => by
    rw [toJsonList, ofJsonList?, ofJson?_toJson e, ofJsonList?_toJsonList es]
    rfl

end

theorem toJson_of_ofJson? : (∀ j e, ofJson? j = some e → e.toJson = j) ∧
    ∀ js es, ofJsonList? js = some es → toJsonList es = js := by
  apply ofJson?.mutual_induct
  case case1 =>
    intro left symbol p right ihl ihr e h
    simp only [ofJson?, Option.bind_eq_bind, Option.bind_eq_some_iff, Option.pure_def] at h
    obtain ⟨op, hop, l, hl, r, hr, ⟨⟩⟩ := h
    rw [toJson, BinaryOp.ofSymbol?_eq_some_iff.1 hop, ihl l hl, ihr r hr]
  case case2 =>
    intro operand symbol p ih e h
    simp only [ofJson?, Option.bind_eq_bind, Option.bind_eq_some_iff, Option.pure_def] at h
    obtain ⟨op, hop, a, ha, ⟨⟩⟩ := h
    rw [toJson, UnaryOp.ofSymbol?_eq_some_iff.1 hop, ih a ha]
  case case3 =>
    intro args name p ih e h
    simp only [ofJson?, Option.bind_eq_bind, Option.bind_eq_some_iff, Option.pure_def] at h
    obtain ⟨es, hes, ⟨⟩⟩ := h
    rw [toJson, ih es hes]
  case case4 =>
    intro typeName p value e h
    simp only [ofJson?, Option.bind_eq_bind, Option.bind_eq_some_iff, Option.pure_def] at h
    obtain ⟨v, hv, ⟨⟩⟩ := h
    obtain ⟨hname, hvalue⟩ := Literal.ofJson?_eq_some_iff.1 hv
    rw [toJson, hname, hvalue]
  case case5 =>
    intro names p e h
    simp only [ofJson?, Option.bind_eq_bind, Option.bind_eq_some_iff, Option.pure_def] at h
    obtain ⟨path, hpath, ⟨⟩⟩ := h
    rw [toJson, Json.strings?_eq_some_iff.1 hpath]
  case case6 =>
    intro j hbinary hunary hcall hliteral hfield e h
    rw [ofJson?.eq_6 j hbinary hunary hcall hliteral hfield] at h
    cases h
  case case7 =>
    intro es h
    cases h
    rfl
  case case8 =>
    intro j js ih ihs es h
    simp only [ofJsonList?, Option.bind_eq_bind, Option.bind_eq_some_iff, Option.pure_def] at h
    obtain ⟨e, he, rest, hrest, ⟨⟩⟩ := h
    rw [toJsonList, ih e he, ihs rest hrest]

theorem ofJson?_eq_some_iff {j : Json} {e : Expr} : ofJson? j = some e ↔ e.toJson = j := by
  constructor
  · exact toJson_of_ofJson?.1 j e
  · rintro rfl
    exact ofJson?_toJson e

/-- The JSON of a tree is read back as an equal tree of the same JSON, so that trees of the same
JSON are equal; and it is the only JSON that the tree is read from. -/
theorem toJson_lossless (a : Expr) :
    (∃ e, ofJson? a.toJson = some e ∧ e.same a = true ∧ e.toJson = a.toJson) ∧
    (∀ b, a.toJson = b.toJson → a.same b = true) ∧
    ∀ j, ofJson? j = some a ↔ a.toJson = j := by
  refine ⟨⟨a, ofJson?_toJson a, a.same_refl, rfl⟩, fun b h => ?_, fun j => ofJson?_eq_some_iff⟩
  have ha := ofJson?_toJson a
  rw [h, ofJson?_toJson b] at ha
  cases ha
  exact a.same_refl

end Expr

end RuleFormula
