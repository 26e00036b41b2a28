import RuleFormula.Command.Basic
import RuleFormula.Proofs.Expr.Equality
import RuleFormula.Proofs.Expr.Image
import RuleFormula.Proofs.Expr.Unbroken
import RuleFormula.Proofs.Positions
import RuleFormula.Proofs.Text.Lines

set_option autoImplicit false

namespace RuleFormula

section Uses

variable {α : Type}

/-- The items are what is used, each of them once, in the order of the places of
their first uses. -/
structure ListsFirst (items : List α) (uses : List (α × Nat)) : Prop where
  mem_iff : ∀ x, x ∈ items ↔ ∃ place, (x, place) ∈ uses
  nodup : items.Nodup
  ordered : items.Pairwise fun x y =>
    ∃ place, (x, place) ∈ uses ∧ ∀ later, (y, later) ∈ uses → place < later

theorem ListsFirst.cons [BEq α] [LawfulBEq α] {items : List α} {x : α} {place : Nat}
    {uses : List (α × Nat)} (hfirst : ∀ u ∈ uses, place < u.2)
    (h : ListsFirst items (uses.filter fun u => !u.1 == x)) :
    ListsFirst (x :: items) ((x, place) :: uses) := by
  have hitems {y : α} (hy : y ∈ items) : y ≠ x ∧ ∃ p, (y, p) ∈ uses := by
    obtain ⟨p, hp⟩ := (h.mem_iff y).1 hy
    obtain ⟨hp, hne⟩ := List.mem_filter.1 hp
    exact ⟨by simpa using hne, p, hp⟩
  have hother {y : α} {p : Nat} (hne : y ≠ x) (hy : (y, p) ∈ (x, place) :: uses) :
      (y, p) ∈ uses.filter fun u => !u.1 == x := by
    rcases List.mem_cons.1 hy with he | hy
    · cases he
      exact absurd rfl hne
    · exact List.mem_filter.2 ⟨hy, by simpa using hne⟩
  constructor
  case mem_iff =>
    intro y
    constructor
    · intro hy
      rcases List.mem_cons.1 hy with rfl | hy
      · exact ⟨place, .head _⟩
      · obtain ⟨-, p, hp⟩ := hitems hy
        exact ⟨p, .tail _ hp⟩
    · rintro ⟨p, hp⟩
      by_cases hne : y = x
      · rw [hne]
        exact .head _
      · exact .tail _ ((h.mem_iff y).2 ⟨p, hother hne hp⟩)
  case nodup => exact List.nodup_cons.2 ⟨fun hx => (hitems hx).1 rfl, h.nodup⟩
  case ordered =>
    refine List.pairwise_cons.2 ⟨fun y hy => ⟨place, .head _, fun later hl => ?_⟩, ?_⟩
    · exact hfirst _ (List.mem_filter.1 (hother (hitems hy).1 hl)).1
    · refine h.ordered.imp_of_mem fun {y z} _ hz hyz => ?_
      obtain ⟨p, hp, hlater⟩ := hyz
      exact ⟨p, .tail _ (List.mem_filter.1 hp).1,
        fun later hl => hlater later (hother (hitems hz).1 hl)⟩

theorem listsFirst_eraseDups [BEq α] [LawfulBEq α] : (uses : List (α × Nat)) →
    uses.Pairwise (fun u v => u.2 < v.2) → ListsFirst (uses.map Prod.fst).eraseDups uses
  | [], _ => ⟨by simp, by simp, by simp⟩
  | (x, place) :: uses, h => by
    obtain ⟨hfirst, hrest⟩ := List.pairwise_cons.1 h
    have ih := listsFirst_eraseDups (uses.filter fun u => !u.1 == x) (hrest.filter _)
    rw [List.map_cons, List.eraseDups_cons, List.filter_map]
    exact .cons hfirst ih
termination_by uses => uses.length
decreasing_by exact Nat.lt_succ_of_le (List.length_filter_le _ _)

end Uses

theorem parseFormula_renderPath {path : List String} (h : WellFormedPath path) {limit : Nat}
    (hl : 0 < limit) :
    ∃ place, parseFormula limit (Expr.renderPath path) = .ok (.field path place) := by
  obtain ⟨e, hp, he⟩ := (parseFormula_render_levels (e := .field path 0) h limit).1 hl
  cases e with
  | field found place =>
    obtain ⟨rfl, -⟩ := Expr.field.inj he
    exact ⟨place, hp⟩
  | binary | unary | call | literal => cases he

theorem renderPath_injective {path other : List String} (h : WellFormedPath path)
    (ho : WellFormedPath other) (he : Expr.renderPath path = Expr.renderPath other) :
    path = other := by
  obtain ⟨place, hp⟩ := parseFormula_renderPath h Nat.one_pos
  obtain ⟨place', hp'⟩ := parseFormula_renderPath ho Nat.one_pos
  rw [he, hp'] at hp
  cases hp
  rfl

namespace Expr

theorem mem_fieldReferences_iff {e : Expr} {path : List String} :
    path ∈ e.fieldReferences ↔ ∃ place, field path place ∈ e.nodes := by
  rw [fieldReferences, List.mem_filterMap]
  constructor
  · rintro ⟨n, hn, h⟩
    cases n <;> cases h
    exact ⟨_, hn⟩
  · rintro ⟨place, hn⟩
    exact ⟨_, hn, rfl⟩

theorem mem_functionNames_iff {e : Expr} {name : String} :
    name ∈ e.functionNames ↔ ∃ args place, call name args place ∈ e.nodes := by
  rw [functionNames, List.mem_filterMap]
  constructor
  · rintro ⟨n, hn, h⟩
    cases n <;> cases h
    exact ⟨_, _, hn⟩
  · rintro ⟨args, place, hn⟩
    exact ⟨_, hn, rfl⟩

theorem WellFormed.path {e : Expr} (h : e.WellFormed) {path : List String}
    (hp : path ∈ e.fieldReferences) : WellFormedPath path := by
  obtain ⟨place, hn⟩ := mem_fieldReferences_iff.1 hp
  exact (wellFormed_iff_nodes e).1 h _ hn

theorem WellFormed.name {e : Expr} (h : e.WellFormed) {name : String}
    (hname : name ∈ e.functionNames) : Text.IsName name := by
  obtain ⟨args, place, hn⟩ := mem_functionNames_iff.1 hname
  exact (wellFormed_iff_nodes e).1 h _ hn

def writtenReferences (e : Expr) : List (String × Nat) :=
  e.placedReferences.map fun u => (renderPath u.1, u.2)

theorem writtenReferences_fst (e : Expr) :
    e.writtenReferences.map Prod.fst = e.fieldReferences.map renderPath := by
  rw [← placedReferences_fst, writtenReferences, List.map_map, List.map_map]
  rfl

end Expr

namespace CheckReport

def listingRows (title : String) (items : List String) : List String :=
  if items.isEmpty then [] else [title ++ ": " ++ ", ".intercalate items]

def rows (r : CheckReport) : List String :=
  "Syntax is valid" :: ("Canonical: " ++ r.canonical) ::
    (listingRows "Fields" r.fields ++ listingRows "Functions" r.functions)

def ended (rows : List String) : List Char := (rows.map String.toList).flatMap (· ++ ['\n'])

@[simp] theorem ended_nil : ended [] = [] := rfl

@[simp] theorem ended_cons (row : String) (rows : List String) :
    ended (row :: rows) = row.toList ++ '\n' :: ended rows := by
  simp [ended]

@[simp] theorem ended_append (rows more : List String) :
    ended (rows ++ more) = ended rows ++ ended more := by
  simp [ended]

theorem toList_listing (title : String) (items : List String) :
    (listing title items).toList = ended (listingRows title items) := by
  unfold listing listingRows
  split <;> simp

theorem toList_toText (r : CheckReport) : r.toText.toList = ended r.rows := by
  have hfirst : "Syntax is valid\n".toList = "Syntax is valid".toList ++ ['\n'] := by decide +kernel
  have hbreak : "\n".toList = ['\n'] := rfl
  unfold toText rows
  simp only [String.toList_append, toList_listing, ended_cons, ended_append, List.append_assoc]
  simp only [hfirst, hbreak, List.append_assoc, List.singleton_append]

theorem length_listingRows (title : String) (items : List String) :
    (listingRows title items).length = if items = [] then 0 else 1 := by
  unfold listingRows
  cases items <;> rfl

theorem length_rows (r : CheckReport) : r.rows.length =
    2 + (if r.fields = [] then 0 else 1) + if r.functions = [] then 0 else 1 := by
  simp only [rows, List.length_cons, List.length_append, length_listingRows]
  omega

open Text

theorem unbroken_listingRows {title : String} {items : List String} (ht : Unbroken title.toList)
    (h : ∀ item ∈ items, Unbroken item.toList) :
    ∀ row ∈ listingRows title items, Unbroken row.toList := by
  intro row hrow
  unfold listingRows at hrow
  split at hrow
  · cases hrow
  · have hitems : Unbroken (", ".intercalate items).toList := unbroken_intercalate (by simp) h
    rw [List.mem_singleton.1 hrow, String.toList_append, String.toList_append]
    exact unbroken_append.2 ⟨unbroken_append.2 ⟨ht, by simp⟩, hitems⟩

theorem unbroken_rows {e : Expr} (h : e.WellFormed) :
    ∀ row ∈ (ofExpr e).rows, Unbroken row.toList := by
  have hfields : ∀ x ∈ (ofExpr e).fields, Unbroken x.toList := fun x hx => by
    obtain ⟨path, hp, rfl⟩ := List.mem_map.1 (List.mem_eraseDups.1 hx)
    exact (h.path hp).unbroken_renderPath
  have hfunctions : ∀ x ∈ (ofExpr e).functions, Unbroken x.toList := fun x hx =>
    (h.name (List.mem_eraseDups.1 hx)).unbroken
  simp only [rows, List.forall_mem_cons, List.forall_mem_append]
  exact ⟨by simp, by simpa [ofExpr] using h.unbroken_render,
    unbroken_listingRows (by simp) hfields, unbroken_listingRows (by simp) hfunctions⟩

theorem ofExpr_eq_of_unplaced_eq {a b : Expr} (h : a.unplaced = b.unplaced) :
    ofExpr a = ofExpr b := by
  have hs := Expr.sameShape_of_unplaced_eq h
  rw [ofExpr, ofExpr, Expr.render_of_unplaced_eq h, Expr.fieldReferences_of_sameShape hs,
    Expr.functionNames_of_sameShape hs]

end CheckReport

theorem check_eq_ok_iff {limit : Nat} {s : String} {r : CheckReport} :
    Command.check limit s = .ok r ↔
      ∃ e, parseFormula limit s = .ok e ∧ CheckReport.ofExpr e = r := by
  unfold Command.check Command.tree
  cases parseFormula limit s with
  | error e => simp [Except.mapError, Except.map]
  | ok e => simp [Except.mapError, Except.map]

/-- Where the canonical form is accepted, the same is told of it. -/
theorem check_render {e : Expr} (h : e.WellFormed) {limit : Nat} (hl : 2 * e.depth - 1 ≤ limit) :
    Command.check limit e.render = .ok (CheckReport.ofExpr e) := by
  have hd := e.levels_lt_depth
  obtain ⟨e', hp, he'⟩ := (parseFormula_render_levels h limit).1 (by omega)
  exact check_eq_ok_iff.2 ⟨e', hp, CheckReport.ofExpr_eq_of_unplaced_eq he'⟩

/-- What a report tells of a source and its tree. -/
structure CheckReport.Describes (r : CheckReport) (source : String) (e : Expr) : Prop where
  canonical : r.canonical = e.render
  listed : (∀ x, x ∈ r.fields ↔ ∃ path ∈ e.fieldReferences, Expr.renderPath path = x) ∧
    ∀ x, x ∈ r.functions ↔ x ∈ e.functionNames
  -- The positions of the nodes, which the lists go by, are places of tokens of the source.
  located : ∃ ts, tokenize source = .ok ts ∧
    ∀ n ∈ e.nodes, ∃ t ∈ ts, n.position = t.location.offset ∧ Grammar.Introduces t n
  fields : ListsFirst r.fields e.writtenReferences
  functions : ListsFirst r.functions e.placedNames
  distinct : ∀ path ∈ e.fieldReferences, ∀ other ∈ e.fieldReferences,
    Expr.renderPath path = Expr.renderPath other → path = other
  -- A path that is listed is a formula by itself, of this path.
  alone : ∀ path ∈ e.fieldReferences, ∀ limit, 0 < limit →
    ∃ place, parseFormula limit (Expr.renderPath path) = .ok (.field path place)
  unbroken : '\n' ∉ r.canonical.toList ∧ '\r' ∉ r.canonical.toList
  -- The text is cut into its rows, and nothing is behind the line feed of the last one.
  lines : Text.lines r.toText.toList = r.rows.map String.toList ++ [[]] ∧
    (∀ row ∈ r.rows, '\r' ∉ row.toList) ∧
    r.rows.length = 2 + (if r.fields = [] then 0 else 1) + if r.functions = [] then 0 else 1
  stable : ∀ limit, 2 * e.depth - 1 ≤ limit → Command.check limit r.canonical = .ok r

/-- The report of a source describes its tree: it is complete, lists everything once in the order of
the source, and is the same for the canonical form. -/
theorem describes_of_check {limit : Nat} {s : String} {r : CheckReport}
    (h : Command.check limit s = .ok r) : ∃ e, parseFormula limit s = .ok e ∧ r.Describes s e := by
  obtain ⟨e, hp, rfl⟩ := check_eq_ok_iff.1 h
  have he := Expr.wellFormed_of_parseFormula hp
  obtain ⟨body, ending, hts, hintro⟩ := exists_introduced_of_parseFormula hp
  have horder : e.inOrder.Pairwise Expr.Before := hintro.pairwise (body_of_tokenize hts).1
  have hrows := CheckReport.unbroken_rows he
  refine ⟨e, hp, ?_⟩
  constructor
  case canonical => rfl
  case listed => exact ⟨fun x => by simp [CheckReport.ofExpr], fun x => List.mem_eraseDups⟩
  case located =>
    refine ⟨_, hts, fun n hn => ?_⟩
    obtain ⟨t, ht, hn⟩ := hintro.exists_mem (Expr.mem_nodes_iff.1 hn)
    exact ⟨t, List.mem_append_left _ ht, hn.position_eq, hn⟩
  case fields =>
    have hplaced := Expr.placedReferences_pairwise horder
    have hlist := listsFirst_eraseDups e.writtenReferences (List.pairwise_map.2 hplaced)
    rwa [Expr.writtenReferences_fst] at hlist
  case functions =>
    have hlist := listsFirst_eraseDups e.placedNames (Expr.placedNames_pairwise horder)
    rwa [Expr.placedNames_fst] at hlist
  case distinct =>
    exact fun path hpath other hother => renderPath_injective (he.path hpath) (he.path hother)
  case alone => exact fun path hpath limit hl => parseFormula_renderPath (he.path hpath) hl
  case unbroken => exact he.unbroken_render.not_mem
  case lines =>
    refine ⟨?_, fun row hrow => (hrows row hrow).not_mem.2, CheckReport.length_rows _⟩
    rw [CheckReport.toList_toText]
    refine Text.lines_flatMap fun row hrow => ?_
    obtain ⟨text, ht, rfl⟩ := List.mem_map.1 hrow
    exact (hrows text ht).not_mem.1
  case stable => exact fun limit hl => check_render he hl

theorem describes_of_check_word : ∃ r e,
    Command.check 4 "sum(NOT.x, $a.b) & sum(NOT.x, 'p\nq')" = .ok r ∧
    r.Describes "sum(NOT.x, $a.b) & sum(NOT.x, 'p\nq')" e ∧
    r = ⟨"(sum(NOT.x, $a.b) & sum(NOT.x, 'p\\nq'))", ["NOT.x", "$a.b"], ["sum"]⟩ := by
  have hreport : (Command.check 4 "sum(NOT.x, $a.b) & sum(NOT.x, 'p\nq')").toOption.map id =
      some ⟨"(sum(NOT.x, $a.b) & sum(NOT.x, 'p\\nq'))", ["NOT.x", "$a.b"], ["sum"]⟩ := by
    decide +kernel
  obtain ⟨r, hr, rfl⟩ := exists_ok_of_map hreport
  obtain ⟨e, -, he⟩ := describes_of_check hr
  exact ⟨_, e, hr, he, rfl⟩

end RuleFormula
