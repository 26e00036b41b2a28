import RuleFormula.Proofs.Grammar.Derivation

/-! Why reading fails: for want of levels, when each level is taken by a token of its own, or at a
token that cannot follow the ones in front of it. Those can still be completed to a phrase, in the
levels that there are. -/
set_option autoImplicit false

namespace RuleFormula.Grammar

variable {α β : Type}

/-- The tokens from the one that a fault is about. A word is taken before it turns out to be no
operand. -/
def Fault.site (fault : Fault) (rest : List Token) : List Token :=
  match fault with
  | .keyword word => word :: rest
  | _ => rest

def Fault.Fits (fault : Fault) (rest : List Token) : Prop :=
  match fault with
  | .trailing found => rest.head? = some found
  | .invalidNumber text e =>
    ∃ t ∈ rest.head?, t.kind = .number ∧ t.text = text ∧ Decimal.read text = .error e
  | .invalidBoolean text => ∃ t ∈ rest.head?, t.kind = .boolean ∧ t.text = text
  | _ => True

/-- Tokens that end whatever is open: operands, names and closing parentheses. -/
def Fills (ts : List Token) : Prop :=
  ∀ t ∈ ts, t.kind = .null ∨ t.kind = .identifier ∨ t.kind = .rightParen

theorem Fills.append {ts us : List Token} (ht : Fills ts) (hu : Fills us) : Fills (ts ++ us) := by
  intro t h
  rcases List.mem_append.1 h with h | h
  · exact ht t h
  · exact hu t h

theorem Fills.ne_endOfInput {ts : List Token} (h : Fills ts) : ∀ t ∈ ts, t.kind ≠ .endOfInput := by
  intro t ht
  rcases h t ht with h | h | h <;> simp [h]

/-- A failure in front of some tokens. Either they have taken so many levels, or what was taken of
them goes on to tokens that satisfy `P`. -/
inductive Failure (P : List Token → α → Prop) (levels : Nat) (ts : List Token) :
    Fault → List Token → Prop
  | tooDeep {rest : List Token} (used : List Token) (hts : ts = used ++ rest)
      (h : levels ≤ used.length) : Failure P levels ts .tooDeep rest
  | stuck {fault : Fault} {rest filler : List Token} {a : α} (used : List Token)
      (hts : ts = used ++ fault.site rest) (hf : fault ≠ .tooDeep) (fits : fault.Fits rest)
      (fills : Fills filler) (h : P (used ++ filler) a) : Failure P levels ts fault rest

def Fails (P : List Token → α → Prop) (levels : Nat) (r : Reader α) : Prop :=
  ∀ ts fault rest, r ts = .error fault rest → Failure P levels ts fault rest

theorem Failure.prepend {P : List Token → α → Prop} {Q : List Token → β → Prop} {m n : Nat}
    {us rest : List Token} {fault : Fault} (pre : List Token) (h : Failure P n us fault rest)
    (hn : m ≤ n + pre.length)
    (hQ : ∀ used filler a, used <+: us → Fills filler → P (used ++ filler) a →
      ∃ more b, Fills more ∧ Q (pre ++ (used ++ more)) b) :
    Failure Q m (pre ++ us) fault rest := by
  cases h with
  | tooDeep used hts h =>
    exact .tooDeep (pre ++ used) (by rw [hts, List.append_assoc])
      (by rw [List.length_append]; omega)
  | @stuck _ _ filler a used hts hf fits fills h =>
    obtain ⟨more, b, hmore, hb⟩ := hQ used filler a ⟨_, hts.symm⟩ fills h
    rw [← List.append_assoc] at hb
    exact .stuck (pre ++ used) (by rw [hts, List.append_assoc]) hf fits hmore hb

theorem Failure.mono {P : List Token → α → Prop} {Q : List Token → β → Prop} {m n : Nat}
    {us rest : List Token} {fault : Fault} (h : Failure P n us fault rest) (hn : m ≤ n)
    (hQ : ∀ ts a, P ts a → ∃ b, Q ts b) : Failure Q m us fault rest :=
  h.prepend [] hn fun _ filler a _ fills hp =>
    let ⟨b, hb⟩ := hQ _ a hp
    ⟨filler, b, fills, hb⟩

def Tier.Gives (tier : Tier) (levels : Nat) (ts : List Token) (e : Expr) : Prop :=
  ∃ p : Phrase tier ts e, p.levels ≤ levels

def Operand.Within (levels : Nat) (ts : List Token) (e : Expr) : Prop :=
  ∃ p : Operand ts e, p.levels ≤ levels

structure Failing (levels : Nat) : Prop where
  read : ∀ tier : Tier, Fails (tier.Gives levels) (levels + 1) (tier.reader (Inner.within levels))
  extend : ∀ {tier next : Tier} (left : Expr), Chains tier next →
    Fails (fun ts e => ∃ c : Chain tier next ts left e, c.levels ≤ levels) levels
      (extend (Inner.within levels) tier left)

def filling (kind : Token.Kind) : Token := ⟨kind, "", .start⟩

theorem fills_null : Fills [filling .null] := by simp [Fills, filling]

theorem fills_name : Fills [filling .identifier] := by simp [Fills, filling]

theorem fills_close : Fills [filling .rightParen] := by simp [Fills, filling]

theorem exists_null_within (levels : Nat) : ∃ e, Operand.Within levels [filling .null] e :=
  ⟨_, .null (.inl rfl), Nat.zero_le _⟩

theorem segments_fails (levels : Nat) :
    Fails (fun ts names => names ≠ [] ∧ Path ts names) levels segments := by
  intro ts fault rest h
  have name {point : Token} (hp : point.kind = .dot) :
      Path ([point] ++ [filling .identifier]) [(filling .identifier).text] := .cons hp rfl .nil
  fun_induction segments ts with
  | case1 => cases h
  | case2 t hp =>
    cases h
    exact .stuck [t] rfl (by simp) trivial fills_name ⟨by simp, name hp⟩
  | case3 t hp word ts hn ih =>
    have hs := Outcome.map_eq_error.1 h
    refine (ih hs).prepend [t, word] (Nat.le_add_right _ _) fun used filler names _ fills hx => ?_
    exact ⟨filler, _, fills, by simp, .cons hp hn hx.2⟩
  | case4 t hp word ts hn =>
    cases h
    exact .stuck [t] rfl (by simp) trivial fills_name ⟨by simp, name hp⟩
  | case5 => cases h

theorem path_fails (levels : Nat) (first : String) (position : Nat) :
    Fails (fun ts (_ : Expr) => ∃ names, names ≠ [] ∧ Path ts names) levels
      (path first position) := by
  intro ts fault rest h
  have hs := Outcome.map_eq_error.1 h
  refine (segments_fails levels ts fault rest hs).mono (Nat.le_refl _) fun ts names hx => ?_
  exact ⟨.field [] 0, names, hx⟩

theorem word_fails {t : Token} {ts rest : List Token} {fault : Fault} (levels : Nat)
    (h : word t ts = .error fault rest) :
    Failure (Operand.Within levels) (levels + 1) (t :: ts) fault rest := by
  obtain ⟨e, he⟩ := exists_null_within levels
  have stuck : Failure (Operand.Within levels) (levels + 1) (t :: ts) (.keyword t) ts :=
    .stuck [] rfl (by simp) trivial fills_null he
  cases hk : t.keyword? with
  | none => simp only [word, hk] at h; cases h
  | some k =>
    cases k with
    | true | false | null => simp only [word, hk] at h; cases h
    | and | or | not => simp only [word, hk] at h; cases h; exact stuck

section

variable {levels : Nat} (below : ∀ l < levels, Failing l)

include below

theorem enter_fails (tier : Tier) :
    Fails (fun ts e => ∃ p : Phrase tier ts e, p.levels + 1 ≤ levels) levels
      (enter (Inner.within levels) fun i => i.read tier) := by
  intro ts fault rest h
  cases levels with
  | zero => cases h; exact .tooDeep [] rfl (Nat.zero_le _)
  | succ l =>
    refine ((below l (Nat.lt_succ_self l)).read tier ts fault rest h).mono (Nat.le_refl _) ?_
    intro ts e hx
    obtain ⟨p, hp⟩ := hx
    exact ⟨e, p, Nat.succ_le_succ hp⟩

theorem arguments_fails (function : String) (fuel : Nat) {ts rest : List Token} {fault : Fault}
    (hfuel : ts.length < fuel)
    (h : arguments (Inner.within levels) function fuel ts = .error fault rest) :
    Failure (fun ts es => ∃ a : Arguments ts es, a.levels ≤ levels) levels ts fault rest := by
  induction fuel generalizing ts with
  | zero => cases hfuel
  | succ fuel ih =>
    rcases Outcome.andThen_eq_error.1 h with he | ⟨e, us, he, hr⟩
    · refine (enter_fails below .or ts fault rest he).prepend [] (Nat.le_refl _) ?_
      intro used filler e _ fills hx
      obtain ⟨p, hp⟩ := hx
      refine ⟨filler ++ [filling .rightParen], [e], fills.append fills_close, ?_⟩
      rw [List.nil_append, ← List.append_assoc]
      exact ⟨.last p rfl, hp⟩
    · obtain ⟨used, rfl, p, hp⟩ := enter_takes (fun l _ => sound l) .or ts e us he
      have close : ∃ a : Arguments (used ++ [filling .rightParen]) [e], a.levels ≤ levels :=
        ⟨.last p rfl, hp⟩
      split at hr
      · cases hr
        exact .stuck used rfl (by simp) trivial fills_close close
      next t after =>
        split at hr
        next hk =>
          have hlen : after.length < fuel := by
            simp only [List.length_append, List.length_cons] at hfuel
            omega
          have ha := (ih hlen (Outcome.map_eq_error.1 hr)).prepend (used ++ [t])
            (Nat.le_add_right _ _) (Q := fun ts es => ∃ a : Arguments ts es, a.levels ≤ levels) ?_
          · simpa using ha
          · intro more filler es _ fills hx
            obtain ⟨a, ha⟩ := hx
            refine ⟨filler, e :: es, fills, ?_⟩
            rw [List.append_assoc, List.singleton_append]
            exact ⟨.more p hk a, by simp only [Arguments.levels]; omega⟩
        · split at hr
          · cases hr
          · cases hr
            exact .stuck used rfl (by simp) trivial fills_close close

theorem call_fails {name opening : Token} (hi : name.kind = .identifier)
    (ho : opening.kind = .leftParen) {ts rest : List Token} {fault : Fault}
    (h : call (Inner.within levels) name ts = .error fault rest) :
    Failure (Operand.Within levels) (levels + 1) (name :: opening :: ts) fault rest := by
  have ha : Failure (fun ts es => ∃ a : Arguments ts es, a.levels ≤ levels)
      levels ts fault rest := by
    have hl := Outcome.map_eq_error.1 h
    unfold argumentList at hl
    split at hl
    · exact arguments_fails below name.text 1 Nat.one_pos hl
    · split at hl
      · cases hl
      · exact arguments_fails below name.text _ (Nat.lt_succ_self _) hl
  refine ha.prepend [name, opening] (Nat.le_succ _) ?_
  intro used filler es _ fills hx
  obtain ⟨a, ha⟩ := hx
  exact ⟨filler, _, fills, .call hi ho a, ha⟩

theorem named_fails {t : Token} (hi : t.kind = .identifier) {ts rest : List Token} {fault : Fault}
    (h : named (Inner.within levels) t ts = .error fault rest) :
    Failure (Operand.Within levels) (levels + 1) (t :: ts) fault rest := by
  unfold named at h
  split at h
  · exact word_fails levels h
  · split at h
    next ho => exact call_fails below hi ho h
    · split at h
      · refine (path_fails levels _ _ _ fault rest h).prepend [t] (Nat.le_refl _) ?_
        intro used filler _ _ fills hx
        obtain ⟨names, hne, path⟩ := hx
        exact ⟨filler, _, fills, .path hi path fun he => absurd he hne, Nat.zero_le _⟩
      · exact word_fails levels h

theorem operand_fails :
    Fails (Operand.Within levels) (levels + 1) (operand (Inner.within levels)) := by
  intro ts fault rest h
  obtain ⟨null, hnull⟩ := exists_null_within levels
  unfold operand at h
  split at h
  · cases h
    exact .stuck [] rfl (by simp) trivial fills_null hnull
  next t ts =>
    split at h
    next hk =>
      split at h
      · cases h
      next e he =>
        cases h
        exact .stuck [] rfl (by simp) ⟨t, rfl, hk, rfl, he⟩ fills_null hnull
    next => cases h
    next hk =>
      split at h
      · cases h
      · cases h
      · cases h
        exact .stuck [] rfl (by simp) ⟨t, rfl, hk, rfl⟩ fills_null hnull
    next => cases h
    next hk => exact named_fails below hk h
    next hk =>
      have name : Operand.Within levels ([t] ++ [filling .identifier]) _ :=
        ⟨.global hk rfl .nil, Nat.zero_le _⟩
      rcases Outcome.andThen_eq_error.1 h with hx | ⟨word, us, hx, hr⟩
      · obtain ⟨rfl, rfl⟩ := expect_eq_error hx
        exact .stuck [t] rfl (by simp) trivial fills_name name
      · obtain ⟨rfl, hn⟩ := expect_eq_ok hx
        refine (path_fails levels _ _ us fault rest hr).prepend [t, word] (Nat.le_succ _) ?_
        intro used filler _ _ fills hx
        obtain ⟨names, -, path⟩ := hx
        exact ⟨filler, _, fills, .global hk hn path, Nat.zero_le _⟩
    next hk =>
      rcases Outcome.andThen_eq_error.1 h with he | ⟨e, us, he, hr⟩
      · refine (enter_fails below .or ts fault rest he).prepend [t] (Nat.le_refl _) ?_
        intro used filler e _ fills hx
        obtain ⟨p, hp⟩ := hx
        -- The parenthesis is closed behind what completes its inside.
        have group : Operand.Within levels (t :: (used ++ filler) ++ [filling .rightParen]) e :=
          ⟨.group hk p rfl, hp⟩
        exact ⟨filler ++ [filling .rightParen], e, fills.append fills_close, by simpa using group⟩
      · obtain ⟨used, rfl, p, hp⟩ := enter_takes (fun l _ => sound l) .or ts e us he
        obtain ⟨rfl, rfl⟩ := expect_eq_error (Outcome.map_eq_error.1 hr)
        exact .stuck (t :: used) rfl (by simp) trivial fills_close ⟨.group hk p rfl, hp⟩
    next =>
      cases h
      exact .stuck [] rfl (by simp) trivial fills_null hnull

theorem sign_fails : Fails (Tier.sign.Gives levels) (levels + 1) (sign (Inner.within levels)) := by
  intro ts fault rest h
  have bare {ts : List Token} (h : operand (Inner.within levels) ts = .error fault rest) :
      Failure (Tier.sign.Gives levels) (levels + 1) ts fault rest := by
    refine (operand_fails below ts fault rest h).mono (Nat.le_refl _) fun ts e hx => ?_
    obtain ⟨p, hp⟩ := hx
    exact ⟨e, .operand p, hp⟩
  unfold sign at h
  split at h
  · exact bare h
  next t ts =>
    split at h
    next hk =>
      refine (enter_fails below .sign ts fault rest (Outcome.map_eq_error.1 h)).prepend [t]
        (Nat.le_refl _) ?_
      intro used filler e _ fills hx
      obtain ⟨p, hp⟩ := hx
      exact ⟨filler, _, fills, .minus hk p, hp⟩
    · split at h
      next hk =>
        refine (enter_fails below .sign ts fault rest h).prepend [t] (Nat.le_refl _) ?_
        intro used filler e _ fills hx
        obtain ⟨p, hp⟩ := hx
        exact ⟨filler, _, fills, .plus hk p, hp⟩
      · exact bare h

theorem power_fails : Fails (Tier.power.Gives levels) (levels + 1)
    (power (Inner.within levels)) := by
  intro ts fault rest h
  rcases Outcome.andThen_eq_error.1 h with hs | ⟨base, us, hs, hr⟩
  · refine (sign_fails below ts fault rest hs).mono (Nat.le_refl _) fun ts e hx => ?_
    obtain ⟨p, hp⟩ := hx
    exact ⟨e, .sign p, hp⟩
  · obtain ⟨used, rfl, b, hb⟩ := sign_takes (fun l _ => sound l) ts base us hs
    split at hr
    · cases hr
    next t after =>
      split at hr
      · cases hr
      next op ho =>
        obtain ⟨hk, rfl⟩ := operator?_power_iff.1 ho
        have hpos : 1 ≤ (used ++ [t]).length := by simp
        have hx := (enter_fails below .power after fault rest (Outcome.map_eq_error.1 hr)).prepend
          (used ++ [t]) (Q := Tier.power.Gives levels) (Nat.add_le_add_left hpos levels) ?_
        · simpa using hx
        · intro more filler e _ fills hx
          obtain ⟨p, hp⟩ := hx
          refine ⟨filler, .binary .power base e t.location.offset, fills, ?_⟩
          rw [List.append_assoc, List.singleton_append]
          exact ⟨.power b hk p, by simp only [Phrase.levels]; omega⟩

theorem extend_fails {tier next : Tier} (left : Expr) (rule : Chains tier next) :
    Fails (fun ts e => ∃ c : Chain tier next ts left e, c.levels ≤ levels) levels
      (extend (Inner.within levels) tier left) := by
  intro ts fault rest h
  cases ts with
  | nil => cases h
  | cons t ts =>
    cases ho : tier.operator? t with
    | none =>
      simp only [extend, ho] at h
      cases h
    | some op =>
      have joins := Joins.of_operator? rule ho
      cases levels with
      | zero =>
        rw [extend_within_zero left ts ho] at h
        cases h
        exact .tooDeep [] rfl (Nat.zero_le _)
      | succ l =>
        rw [extend_within_succ l left ts ho, rule.tighter_eq] at h
        rcases Outcome.andThen_eq_error.1 h with hx | ⟨right, us, hr, hx⟩
        · refine ((below l (Nat.lt_succ_self l)).read next ts fault rest hx).prepend [t]
            (Nat.le_succ _) ?_
          intro used filler e _ fills hx
          obtain ⟨p, hp⟩ := hx
          have fold : ∃ c : Chain tier next (t :: (used ++ filler) ++ []) left
              (.binary op left e t.location.offset), c.levels ≤ l + 1 :=
            ⟨.more joins p .done, by simp only [Chain.levels]; omega⟩
          rw [List.append_nil] at fold
          exact ⟨filler, _, fills, fold⟩
        · obtain ⟨used, rfl, p, hp⟩ := (sound l).read next ts right us hr
          have hx :=
            ((below l (Nat.lt_succ_self l)).extend _ rule us fault rest hx).prepend (t :: used)
            (Nat.add_le_add_left (Nat.succ_pos _) l)
            (Q := fun ts e => ∃ c : Chain tier next ts left e, c.levels ≤ l + 1) ?_
          · simpa using hx
          · intro more filler e _ fills hx
            obtain ⟨c, hc⟩ := hx
            exact ⟨filler, e, fills, .more joins p c, by simp only [Chain.levels]; omega⟩

theorem chain_fails {tier next : Tier} (rule : Chains tier next)
    (h : Fails (next.Gives levels) (levels + 1) (next.reader (Inner.within levels))) :
    Fails (tier.Gives levels) (levels + 1) (tier.reader (Inner.within levels)) := by
  intro ts fault rest hr
  rw [rule.reader_eq] at hr
  rcases Outcome.andThen_eq_error.1 hr with hf | ⟨first, us, hf, hx⟩
  · refine (h ts fault rest hf).mono (Nat.le_refl _) fun ts e hx => ?_
    obtain ⟨p, hp⟩ := hx
    obtain ⟨q, hq⟩ := Phrase.exists_chain rule p
    exact ⟨e, q, by omega⟩
  · obtain ⟨used, rfl, p, hp⟩ := (sound levels).read next ts first us hf
    -- The first operand has taken a token, which makes up for the level that the tier has more.
    have hpos : 0 < used.length := by
      obtain ⟨t, us, rfl, -⟩ := p.head
      exact Nat.succ_pos _
    refine (extend_fails below first rule us fault rest hx).prepend used (by omega) ?_
    intro more filler e _ fills hx
    obtain ⟨c, hc⟩ := hx
    exact ⟨filler, e, fills, .chain rule p c, by simp only [Phrase.levels]; omega⟩

theorem negation_fails
    (h : Fails (Tier.comparison.Gives levels) (levels + 1) (comparison (Inner.within levels))) :
    Fails (Tier.not.Gives levels) (levels + 1) (negation (Inner.within levels)) := by
  intro ts fault rest hr
  have bare {ts : List Token} (hr : comparison (Inner.within levels) ts = .error fault rest) :
      Failure (Tier.not.Gives levels) (levels + 1) ts fault rest := by
    refine (h ts fault rest hr).mono (Nat.le_refl _) fun ts e hx => ?_
    obtain ⟨p, hp⟩ := hx
    exact ⟨e, .comparison p, hp⟩
  cases ts with
  | nil => exact bare hr
  | cons t ts =>
    by_cases hn : t.negates ts.head?
    · simp only [negation, hn, if_true] at hr
      refine (enter_fails below .not ts fault rest (Outcome.map_eq_error.1 hr)).prepend [t]
        (Nat.le_refl _) ?_
      intro used filler e hused fills hx
      obtain ⟨p, hp⟩ := hx
      rcases Token.negates_iff.1 hn with hk | ⟨hw, hnext⟩
      · exact ⟨filler, _, fills, .bang hk p, hp⟩
      · -- Behind the word stands what stood there before, or a filler.
        have hhead : ∀ u ∈ (used ++ filler).head?, u.kind ≠ .leftParen ∧ u.kind ≠ .dot := by
          intro u hu
          cases used with
          | nil =>
            have hmem : u ∈ filler := List.mem_of_mem_head? hu
            rcases fills u hmem with h | h | h <;> simp [h]
          | cons v used =>
            obtain ⟨more, rfl⟩ := hused
            exact hnext u hu
        exact ⟨filler, _, fills, .word hw hhead p, hp⟩
    · simp only [negation, hn] at hr
      exact bare hr

end

theorem failing (levels : Nat) : Failing levels := by
  induction levels using Nat.strongRecOn with
  | ind levels below =>
    refine ⟨fun tier => ?_, fun left rule => extend_fails below left rule⟩
    induction tier using Tier.loosening_induction with
    | sign => exact sign_fails below
    | power => exact power_fails below
    | chain rule h => exact chain_fails below rule h
    | not h => exact negation_fails below h

theorem complete_fails (limit : Nat) :
    Fails (fun ts e => ∃ p : Phrase .or ts e, p.levels < limit) limit
      (complete (Inner.within limit)) := by
  intro ts fault rest h
  rcases Outcome.andThen_eq_error.1 h with he | ⟨e, us, he, hr⟩
  · exact enter_fails (fun l _ => failing l) .or ts fault rest he
  · obtain ⟨used, rfl, p, hp⟩ := enter_takes (fun l _ => sound l) .or ts e us he
    split at hr
    · cases hr
    · cases hr
      have fills : Fills [] := by simp [Fills]
      refine .stuck used rfl (by simp) rfl fills (a := e) ?_
      rw [List.append_nil]
      exact ⟨p, hp⟩

end RuleFormula.Grammar
