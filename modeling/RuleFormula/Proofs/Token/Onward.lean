import RuleFormula.Proofs.Token.Places

set_option autoImplicit false

namespace RuleFormula

namespace Location

/-- A place in a text that starts at `base`. Its first line goes on from the column there. -/
def behind (base l : Location) : Location :=
  ⟨base.offset + l.offset, base.line + (l.line - 1),
    if l.line = 1 then base.column + (l.column - 1) else l.column⟩

def Counted (l : Location) : Prop := 1 ≤ l.line ∧ 1 ≤ l.column

theorem start_counted : start.Counted := ⟨Nat.le_refl 1, Nat.le_refl 1⟩

theorem behind_start (base : Location) : base.behind start = base := by
  simp [behind, start]

theorem Counted.step {l : Location} (h : l.Counted) (c : Char) : (l.step c).Counted := by
  obtain ⟨hl, hc⟩ := h
  unfold Location.step
  split
  · exact ⟨Nat.le_succ_of_le hl, Nat.le_refl 1⟩
  · exact ⟨hl, Nat.le_succ_of_le hc⟩

theorem Counted.advance {l : Location} (h : l.Counted) (cs : List Char) :
    (l.advance cs).Counted := by
  induction cs generalizing l with
  | nil => exact h
  | cons c cs ih => exact ih (h.step c)

theorem Counted.step_behind {l : Location} (h : l.Counted) (base : Location) (c : Char) :
    (base.behind l).step c = base.behind (l.step c) := by
  obtain ⟨hl, hc⟩ := h
  by_cases hf : c = '\n'
  · have hline : l.line ≠ 0 := by omega
    simp only [Location.step, behind, hf, if_true, Location.mk.injEq, Nat.add_eq_right, hline,
      if_false, and_true]
    omega
  · by_cases hline : l.line = 1
    · simp only [Location.step, behind, hf, if_false, hline, if_true, Location.mk.injEq, true_and]
      omega
    · simp only [Location.step, behind, hf, if_false, hline, Location.mk.injEq, and_true]
      omega

theorem Counted.advance_behind {l : Location} (h : l.Counted) (base : Location) (cs : List Char) :
    (base.behind l).advance cs = base.behind (l.advance cs) := by
  induction cs generalizing l with
  | nil => rfl
  | cons c cs ih => rw [advance_cons, advance_cons, h.step_behind, ih (h.step c)]

end Location

def Token.behind (base : Location) (t : Token) : Token :=
  { t with location := base.behind t.location }

def LexError.behind (base : Location) (e : LexError) : LexError :=
  { e with location := base.behind e.location }

namespace Cursor

def behind (base : Location) (c : Cursor) : Cursor := { c with location := base.behind c.location }

/-- The cursor that so many readings leave. -/
def after : Nat → Cursor → Cursor
  | 0, c => c
  | n + 1, c => after n c.next.2

variable {c d : Cursor} {cs : List Char}

theorem skip_behind (h : c.location.Counted) (base : Location) (width : Nat) :
    (c.behind base).skip width = (c.skip width).behind base := by
  simp only [skip, behind, h.advance_behind]

theorem skipTrivia_behind (h : c.location.Counted) (base : Location) :
    (c.behind base).skipTrivia = c.skipTrivia.behind base := by
  simp only [skipTrivia, behind, h.advance_behind]

theorem readLexeme_behind (h : c.location.Counted) (base : Location) : (c.behind base).readLexeme =
    ((c.readLexeme.1.map (Token.behind base)).mapError (LexError.behind base),
      c.readLexeme.2.behind base) := by
  unfold readLexeme
  rw [show (c.behind base).rest = c.rest from rfl]
  split
  · rw [skip_behind h]
    rfl
  · rw [skip_behind h, skip_behind h]
    rfl
  · rfl

theorem next_behind (h : c.location.Counted) (base : Location) : (c.behind base).next =
    ((c.next.1.map (Token.behind base)).mapError (LexError.behind base), c.next.2.behind base) := by
  rw [next, skipTrivia_behind h, readLexeme_behind (h.advance _)]
  rfl

theorem next_counted (h : c.location.Counted) : c.next.2.location.Counted := by
  have hskip : c.skipTrivia.location.Counted := h.advance _
  unfold next readLexeme
  split
  · exact hskip.advance _
  · exact hskip.advance _
  · exact hskip

theorem tokens_behind (h : c.location.Counted) (base : Location) : (c.behind base).tokens =
    (c.tokens.map (List.map (Token.behind base))).mapError (LexError.behind base) := by
  induction hn : c.rest.length using Nat.strongRecOn generalizing c with
  | _ n ih =>
    have hmoved := next_behind h base
    cases hnext : c.next with
    | mk result d =>
      have hd := next_counted h
      rw [hnext] at hmoved hd
      cases result with
      | error e =>
        rw [tokens_of_error hnext, tokens_of_error hmoved]
        rfl
      | ok t =>
        by_cases hk : t.kind = .endOfInput
        · rw [tokens_of_end hnext hk, tokens_of_end hmoved hk]
          rfl
        · have hlt := length_next_lt hnext hk
          rw [tokens_of_token hnext hk, tokens_of_token hmoved hk,
            ih d.rest.length (by omega) hd rfl]
          cases d.tokens <;> rfl

theorem On.rest_eq (h : c.On cs) : c.rest = cs.drop c.location.offset := by
  obtain ⟨before, rfl, hl⟩ := h
  simp [hl, Location.offset_advance, Location.start]

theorem offset_skip (c : Cursor) (width : Nat) :
    (c.skip width).location.offset = c.location.offset + (c.rest.take width).length :=
  Location.offset_advance _ _

theorem offset_le_skipTrivia (c : Cursor) : c.location.offset ≤ c.skipTrivia.location.offset := by
  rw [skipTrivia, Location.offset_advance]
  exact Nat.le_add_right _ _

theorem offset_le_readLexeme (c : Cursor) : c.location.offset ≤ c.readLexeme.2.location.offset := by
  unfold readLexeme
  split
  · rw [offset_skip]
    exact Nat.le_add_right _ _
  · rw [offset_skip]
    exact Nat.le_add_right _ _
  · exact Nat.le_refl _

theorem offset_le_next (c : Cursor) : c.location.offset ≤ c.next.2.location.offset :=
  Nat.le_trans c.offset_le_skipTrivia c.skipTrivia.offset_le_readLexeme

theorem offset_le_after (n : Nat) (c : Cursor) :
    c.location.offset ≤ (c.after n).location.offset := by
  induction n generalizing c with
  | zero => exact Nat.le_refl _
  | succ n ih => exact Nat.le_trans c.offset_le_next (ih c.next.2)

theorem next_eq_ok {t : Token} (h : c.next.1 = .ok t) :
    (∃ width, Lexeme.scan c.skipTrivia.rest = .token t.kind width ∧
      t = ⟨t.kind, String.ofList (c.skipTrivia.rest.take width), c.skipTrivia.location⟩ ∧
      c.next.2 = c.skipTrivia.skip width) ∨
    Lexeme.scan c.skipTrivia.rest = .none ∧ t = .atEnd c.skipTrivia.location ∧
      c.next.2 = c.skipTrivia := by
  unfold next readLexeme at h ⊢
  split at h
  next hs =>
    cases h
    exact .inl ⟨_, hs, rfl, rfl⟩
  · cases h
  next hs =>
    cases h
    exact .inr ⟨hs, rfl, rfl⟩

theorem offset_of_next {t : Token} (h : c.next.1 = .ok t) : c.location.offset ≤ t.location.offset ∧
    c.next.2.location.offset = t.location.offset + t.text.length := by
  have hle := c.offset_le_skipTrivia
  obtain ⟨width, -, ht, hd⟩ | ⟨-, ht, hd⟩ := next_eq_ok h
  · rw [hd, ht, offset_skip, String.length_ofList]
    exact ⟨hle, rfl⟩
  · rw [hd, ht]
    exact ⟨hle, rfl⟩

theorem text_length_pos {t : Token} (h : c.next.1 = .ok t) (hk : t.kind ≠ .endOfInput) :
    0 < t.text.length := by
  obtain ⟨width, hs, ht, -⟩ | ⟨-, ht, -⟩ := next_eq_ok h
  · rw [ht, String.length_ofList, List.length_take_of_le (Lexeme.width_le hs)]
    exact Lexeme.width_pos hs
  · rw [ht] at hk
    exact absurd rfl hk

theorem On.text_of_next (h : c.On cs) {t : Token} (ht : c.next.1 = .ok t) :
    t.text.toList = (cs.drop t.location.offset).take t.text.length := by
  have hrest := h.skipTrivia.rest_eq
  obtain ⟨width, hs, ht, -⟩ | ⟨-, ht, -⟩ := next_eq_ok ht
  · rw [ht, String.length_ofList, String.toList_ofList, ← hrest,
      List.length_take_of_le (Lexeme.width_le hs)]
  · rw [ht]
    rfl

theorem tokens_pairwise {us : List Token} (h : c.tokens = .ok us) :
    us.Pairwise (fun a b => a.location.offset < b.location.offset) ∧
      ∀ t ∈ us, c.location.offset ≤ t.location.offset := by
  induction hn : c.rest.length using Nat.strongRecOn generalizing c us with
  | _ n ih =>
    cases hnext : c.next with
    | mk result d =>
      cases result with
      | error e =>
        rw [tokens_of_error hnext] at h
        cases h
      | ok t =>
        obtain ⟨hstart, hstop⟩ := offset_of_next (congrArg Prod.fst hnext)
        simp only [hnext] at hstop
        by_cases hk : t.kind = .endOfInput
        · rw [tokens_of_end hnext hk] at h
          cases h
          simpa using hstart
        · obtain ⟨vs, hvs, rfl⟩ := exists_of_tokens hnext hk h
          have hlt := length_next_lt hnext hk
          have hpos := text_length_pos (congrArg Prod.fst hnext) hk
          obtain ⟨hsorted, hfrom⟩ := ih d.rest.length (by omega) hvs rfl
          refine ⟨List.pairwise_cons.2 ⟨fun u hu => ?_, hsorted⟩, fun u hu => ?_⟩
          · have hu := hfrom u hu
            omega
          · rcases List.mem_cons.1 hu with rfl | hu
            · exact hstart
            · have hu := hfrom u hu
              omega

theorem next_of_rest_nil (h : c.rest = []) : c.next = (.ok (.atEnd c.location), c) := by
  obtain ⟨rest, l⟩ := c
  obtain rfl : rest = [] := h
  rfl

theorem rest_nil_of_next_end {t : Token} (h : c.next = (.ok t, d)) (hk : t.kind = .endOfInput) :
    d.rest = [] ∧ t = .atEnd d.location := by
  obtain ⟨width, hs, -, -⟩ | ⟨hs, ht, hd⟩ := next_eq_ok (congrArg Prod.fst h)
  · exact absurd hk (Lexeme.kind_ne_endOfInput hs)
  · rw [h] at hd
    obtain rfl : d = c.skipTrivia := hd
    exact ⟨Lexeme.eq_nil_of_scan hs, ht⟩

theorem next_after_of_end {t : Token} (h : c.next = (.ok t, d)) (ht : t.kind = .endOfInput)
    (n : Nat) :
    (d.after n).next = (.ok t, d) := by
  obtain ⟨hrest, rfl⟩ := rest_nil_of_next_end h ht
  have hd := next_of_rest_nil hrest
  induction n with
  | zero => exact hd
  | succ n ih => rw [after, hd]; exact ih

theorem after_on (s : String) (n : Nat) : ((ofSource s).after n).On s.toList := by
  have hon (c : Cursor) (h : c.On s.toList) : (c.after n).On s.toList := by
    induction n generalizing c with
    | zero => exact h
    | succ n ih => exact ih c.next.2 h.next.1
  exact hon _ (ofSource_on s)

/-- The source from a place on, as a source of its own. -/
def sourceFrom (s : String) (l : Location) : String := String.ofList (s.toList.drop l.offset)

theorem On.eq_behind {s : String} (h : c.On s.toList) :
    c = (ofSource (sourceFrom s c.location)).behind c.location := by
  rw [sourceFrom, ← h.rest_eq, ofSource, String.toList_ofList, behind, Location.behind_start]

/-- What holds of a cursor of a source wherever its readings have led it. -/
structure Onward (s : String) (c : Cursor) : Prop where
  place : c.location.In s.toList ∧ c.rest = s.toList.drop c.location.offset
  onward : c.location.offset ≤ c.next.2.location.offset
  -- A token is the text between its place and the cursor behind it, and all that is read later
  -- lies behind it too.
  token : ∀ t, c.next.1 = .ok t → t.kind ≠ .endOfInput →
    c.location.offset ≤ t.location.offset ∧ t.location.offset < c.next.2.location.offset ∧
    t.text.toList = (s.toList.drop t.location.offset).take
      (c.next.2.location.offset - t.location.offset) ∧
    ∀ m u, (c.next.2.after m).next.1 = .ok u → c.next.2.location.offset ≤ u.location.offset
  -- What is read is what the rest gives as a source of its own, with the places counted on.
  afresh : c.next = (((ofSource (sourceFrom s c.location)).next.1.map
      (Token.behind c.location)).mapError (LexError.behind c.location),
    (ofSource (sourceFrom s c.location)).next.2.behind c.location)
  tokens : c.tokens = ((tokenize (sourceFrom s c.location)).map
    (List.map (Token.behind c.location))).mapError (LexError.behind c.location)
  ending : ∀ t, c.next.1 = .ok t → t.kind = .endOfInput →
    ∀ m, (c.next.2.after m).next = (.ok t, c.next.2)

/-- After any readings of a source, failed ones among them, the cursor goes on as a
new one would. -/
theorem reading_onward (s : String) (n : Nat) : ((ofSource s).after n).Onward s := by
  have hon := after_on s n
  generalize (ofSource s).after n = c at hon ⊢
  have hfresh := hon.eq_behind
  have hcounted : (ofSource (sourceFrom s c.location)).location.Counted := Location.start_counted
  have hmoved := next_behind hcounted c.location
  have htokens := tokens_behind hcounted c.location
  rw [← hfresh] at hmoved htokens
  refine ⟨⟨hon.location_in, hon.rest_eq⟩, c.offset_le_next, fun t ht hk => ?_, hmoved, htokens,
    fun t ht hk => ?_⟩
  · obtain ⟨hstart, hstop⟩ := offset_of_next ht
    have hpos := text_length_pos ht hk
    refine ⟨hstart, by omega, ?_, fun m u hu => ?_⟩
    · rw [hon.text_of_next ht, hstop, Nat.add_sub_cancel_left]
    · exact Nat.le_trans (offset_le_after m _) (offset_of_next hu).1
  · exact next_after_of_end (Prod.ext ht rfl) hk

end Cursor

end RuleFormula
