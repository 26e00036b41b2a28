import RuleFormula.Proofs.Grammar.Failure

/-! Reading looks one token ahead, and the levels that are left decide nothing but when it ends.
With other tokens behind the next one and with more levels, reading goes the same way, and where the
levels were missing it goes on. -/
set_option autoImplicit false

namespace RuleFormula.Grammar

variable {α β : Type}

/-- The tokens from which nothing has been read yet, or which the fault is about. -/
def Outcome.site : Outcome α → List Token
  | ok _ rest => rest
  | error fault rest => fault.site rest

theorem Outcome.rest_suffix_site (o : Outcome α) : o.rest <:+ o.site := by
  cases o with
  | ok a rest => exact List.suffix_refl rest
  | error fault rest =>
    cases fault with
    | keyword word => exact List.suffix_cons word rest
    | _ => exact List.suffix_refl rest

@[simp] theorem Outcome.rest_map (o : Outcome α) (f : α → β) : (o.map f).rest = o.rest := by
  cases o <;> rfl

@[simp] theorem Outcome.site_map (o : Outcome α) (f : α → β) : (o.map f).site = o.site := by
  cases o <;> rfl

/-- Nothing is reported in front of the tokens that are read. -/
def Keeps (r : Reader α) : Prop := ∀ ts, (r ts).site <:+ ts

theorem Keeps.of_takes {P : List Token → α → Prop} {Q : List Token → β → Prop} {n : Nat}
    {r : Reader α} (ht : Takes P r)
    (hf : ∀ ts fault rest, r ts = .error fault rest → Failure Q n ts fault rest) : Keeps r := by
  intro ts
  cases h : r ts with
  | ok a rest =>
    obtain ⟨used, rfl, -⟩ := ht ts a rest h
    exact List.suffix_append used rest
  | error fault rest =>
    cases hf ts fault rest h with
    | tooDeep used hts _ => exact ⟨used, hts.symm⟩
    | stuck used hts _ _ _ _ => exact ⟨used, hts.symm⟩

theorem Keeps.map {r : Reader α} (h : Keeps r) (f : α → β) : Keeps fun ts => (r ts).map f := by
  intro ts
  rw [Outcome.site_map]
  exact h ts

theorem Outcome.site_andThen_suffix {o : Outcome α} {f : α → Reader β} {ts : List Token}
    (h : o.site <:+ ts) (hf : ∀ a, Keeps (f a)) : (o.andThen f).site <:+ ts := by
  cases o with
  | ok a us => exact (hf a us).trans h
  | error fault us => exact h

/-- In front of other tokens, a reading ends as another one did, or goes on where the levels of the
other one were missing. -/
inductive Outcome.Continues : Outcome α → List Token → Outcome α → Prop
  | ok {a : α} {rest more : List Token} : Continues (.ok a rest) more (.ok a more)
  | error {fault : Fault} {rest more : List Token} (h : fault ≠ .tooDeep) :
      Continues (.error fault rest) more (.error fault more)
  | tooDeep {rest more : List Token} {o : Outcome α} (h : o.site <:+ more) :
      Continues (.error .tooDeep rest) more o

theorem Outcome.Continues.map {o o' : Outcome α} {more : List Token} (h : o.Continues more o')
    (f : α → β) : (o.map f).Continues more (o'.map f) := by
  cases h with
  | ok => exact .ok
  | error hf => exact .error hf
  | tooDeep hs => exact .tooDeep (by rw [site_map]; exact hs)

/-- What `r` reads off the front of the tokens, `r'` reads in front of all tokens with the same
first one. -/
def FollowsAt (r r' : Reader α) (ts : List Token) : Prop :=
  ∃ used, ts = used ++ (r ts).rest ∧
    ∀ more, more.head? = (r ts).rest.head? → (r ts).Continues more (r' (used ++ more))

theorem head?_append_congr (used : List Token) {more rest : List Token}
    (h : more.head? = rest.head?) :
    (used ++ more).head? = (used ++ rest).head? := by
  cases used with
  | nil => exact h
  | cons t used => rfl

theorem of_head?_nil {P : List Token → Prop} (h : P []) (us : List Token)
    (hu : us.head? = ([] : List Token).head?) : P us := by
  cases us with
  | nil => exact h
  | cons u us => cases hu

theorem of_head?_cons {P : List Token → Prop} {t : Token} {ts : List Token} (h : ∀ us, P (t :: us))
    (us : List Token) (hu : us.head? = (t :: ts).head?) : P us := by
  cases us with
  | nil => cases hu
  | cons u us => cases hu; exact h us

namespace FollowsAt

variable {r r' q q' : Reader α} {t : Token} {ts : List Token}

theorem ok {a : α} (h : r ts = .ok a ts) (h' : ∀ us, us.head? = ts.head? → r' us = .ok a us) :
    FollowsAt r r' ts := by
  refine ⟨[], by rw [h]; rfl, fun more hm => ?_⟩
  rw [h] at hm ⊢
  rw [List.nil_append, h' more hm]
  exact .ok

theorem error {fault : Fault} (hf : fault ≠ .tooDeep) (h : r ts = .error fault ts)
    (h' : ∀ us, us.head? = ts.head? → r' us = .error fault us) : FollowsAt r r' ts := by
  refine ⟨[], by rw [h]; rfl, fun more hm => ?_⟩
  rw [h] at hm ⊢
  rw [List.nil_append, h' more hm]
  exact .error hf

theorem tooDeep (h : r ts = .error .tooDeep ts) (h' : Keeps r') : FollowsAt r r' ts := by
  refine ⟨[], by rw [h]; rfl, fun more _ => ?_⟩
  rw [h]
  exact .tooDeep (h' more)

theorem congr (h : FollowsAt q q' ts) (hr : r ts = q ts)
    (hr' : ∀ us, us.head? = ts.head? → r' us = q' us) : FollowsAt r r' ts := by
  obtain ⟨used, hts, hmore⟩ := h
  refine ⟨used, by rw [hr]; exact hts, fun more hm => ?_⟩
  rw [hr] at hm ⊢
  have hhead := head?_append_congr used hm
  rw [← hts] at hhead
  rw [hr' _ hhead]
  exact hmore more hm

theorem cons (h : FollowsAt q q' ts) (hr : r (t :: ts) = q ts)
    (hr' : ∀ us, us.head? = ts.head? → r' (t :: us) = q' us) : FollowsAt r r' (t :: ts) := by
  obtain ⟨used, hts, hmore⟩ := h
  refine ⟨t :: used, by rw [hr, List.cons_append, ← hts], fun more hm => ?_⟩
  rw [hr] at hm ⊢
  have hhead := head?_append_congr used hm
  rw [← hts] at hhead
  rw [List.cons_append, hr' _ hhead]
  exact hmore more hm

theorem of_taken (h : FollowsAt q q' ts) (hr : ∀ us, r (t :: us) = q us)
    (hr' : ∀ us, r' (t :: us) = q' us) : FollowsAt r r' (t :: ts) :=
  .cons h (hr ts) fun us _ => hr' us

theorem of_same (h : FollowsAt q q' (t :: ts)) (hr : ∀ us, r (t :: us) = q (t :: us))
    (hr' : ∀ us, r' (t :: us) = q' (t :: us)) : FollowsAt r r' (t :: ts) :=
  .congr h (hr ts) (of_head?_cons hr')

theorem ok_of_same {a : α} (hr : ∀ us, r (t :: us) = .ok a (t :: us))
    (hr' : ∀ us, r' (t :: us) = .ok a (t :: us)) : FollowsAt r r' (t :: ts) :=
  .ok (hr ts) (of_head?_cons hr')

theorem ok_of_taken {a : α} (hr : ∀ us, r (t :: us) = .ok a us)
    (hr' : ∀ us, r' (t :: us) = .ok a us) : FollowsAt r r' (t :: ts) :=
  .of_taken (.ok (a := a) rfl fun _ _ => rfl) hr hr'

theorem error_of_same {fault : Fault} (hf : fault ≠ .tooDeep)
    (hr : ∀ us, r (t :: us) = .error fault (t :: us))
    (hr' : ∀ us, r' (t :: us) = .error fault (t :: us)) : FollowsAt r r' (t :: ts) :=
  .error hf (hr ts) (of_head?_cons hr')

theorem tail (h : FollowsAt r r' (t :: ts)) (hs : (r (t :: ts)).rest <:+ ts) :
    FollowsAt (fun us => r (t :: us)) (fun us => r' (t :: us)) ts := by
  obtain ⟨used, hts, hmore⟩ := h
  cases used with
  | nil =>
    rw [List.nil_append] at hts
    rw [← hts] at hs
    exact absurd hs.length_le (Nat.not_succ_le_self ts.length)
  | cons u used =>
    rw [List.cons_append, List.cons.injEq] at hts
    obtain ⟨rfl, hts⟩ := hts
    exact ⟨used, hts, hmore⟩

theorem map (h : FollowsAt r r' ts) (f : α → β) :
    FollowsAt (fun ts => (r ts).map f) (fun ts => (r' ts).map f) ts := by
  obtain ⟨used, hts, hmore⟩ := h
  refine ⟨used, by rw [Outcome.rest_map]; exact hts, fun more hm => ?_⟩
  rw [Outcome.rest_map] at hm
  exact (hmore more hm).map f

theorem andThen {f f' : α → Reader β} (h : FollowsAt r r' ts)
    (hf : ∀ a us, r ts = .ok a us → FollowsAt (f a) (f' a) us) (hk : ∀ a, Keeps (f' a)) :
    FollowsAt (fun ts => (r ts).andThen f) (fun ts => (r' ts).andThen f') ts := by
  obtain ⟨used, hts, hmore⟩ := h
  cases ho : r ts with
  | ok a us =>
    obtain ⟨used', hus, hmore'⟩ := hf a us ho
    rw [ho] at hts hmore
    have hus' : us = used' ++ (f a us).rest := hus
    refine ⟨used ++ used', ?_, fun more hm => ?_⟩
    · simp only [ho, Outcome.andThen_ok]
      rw [List.append_assoc, ← hus']
      exact hts
    · simp only [ho, Outcome.andThen_ok] at hm ⊢
      -- The first reader sees what the second one takes, and behind it the same next token.
      have hhead := head?_append_congr used' hm
      rw [← hus'] at hhead
      have hc := hmore (used' ++ more) hhead
      rw [List.append_assoc]
      generalize r' (used ++ (used' ++ more)) = o' at hc ⊢
      cases hc
      exact hmore' more hm
  | error fault us =>
    rw [ho] at hts hmore
    refine ⟨used, ?_, fun more hm => ?_⟩
    · simp only [ho, Outcome.andThen_error]
      exact hts
    · simp only [ho, Outcome.andThen_error] at hm ⊢
      have hc := hmore more hm
      generalize r' (used ++ more) = o' at hc ⊢
      cases hc with
      | error hf => exact .error hf
      | tooDeep hs => exact .tooDeep (Outcome.site_andThen_suffix hs hk)

end FollowsAt

theorem expect_follows (kind : Token.Kind) (what : Expectation) (ts : List Token) :
    FollowsAt (expect kind what) (expect kind what) ts := by
  cases ts with
  | nil => exact .error (by simp) rfl (of_head?_nil rfl)
  | cons t ts =>
    have step (us : List Token) : expect kind what (t :: us) =
        if t.kind = kind then .ok t us else .error (.expected what) (t :: us) := rfl
    by_cases hk : t.kind = kind
    · simp only [hk, if_true] at step
      exact .ok_of_taken step step
    · simp only [hk, if_false] at step
      exact .error_of_same (by simp) step step

theorem segments_keeps : Keeps segments := .of_takes segments_takes (segments_fails 0)

theorem segments_follows (ts : List Token) : FollowsAt segments segments ts := by
  induction hn : ts.length using Nat.strongRecOn generalizing ts with
  | _ n ih =>
    cases ts with
    | nil => exact .ok rfl (of_head?_nil rfl)
    | cons t ts =>
      by_cases hp : t.kind = .dot
      · refine .cons (.andThen (expect_follows _ _ ts) (fun name us h => ?_) fun name =>
          segments_keeps.map _) (segments_of_dot hp ts) fun us _ => segments_of_dot hp us
        obtain ⟨rfl, -⟩ := expect_eq_ok h
        exact (ih us.length (by simp only [List.length_cons] at hn; omega) us rfl).map _
      · exact .ok_of_same (segments_of_ne_dot hp) (segments_of_ne_dot hp)

end RuleFormula.Grammar
