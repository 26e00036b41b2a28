import RuleFormula.Command.Arguments

/-! A formula at the end of a command line, behind two hyphens. It is taken for the formula whatever
it is, and nothing else that was asked for changes. -/
set_option autoImplicit false

namespace RuleFormula.Command

variable {args : List String}

theorem readLimit?_hyphens : readLimit? "--" = none := by decide

namespace Options

theorem setLimit?_hyphens (o : Options) : o.setLimit? "--" = .none := by
  rw [setLimit?, readLimit?_hyphens]
  split <;> rfl

theorem read?_append (verb : Verb) (o : Options) (h : "--" ∉ args) (formula : String) :
    read? verb o (args ++ ["--", formula]) = (read? verb o args).bind (·.setFormula? formula) := by
  fun_induction read? verb o args with
  | case1 o => simp [read?]
  | case2 o args => exact absurd (.head _) h
  | case3 o =>
    rw [List.cons_append, List.nil_append, read?.eq_4, setLimit?_hyphens]
    rfl
  | case4 o value args ih =>
    have hargs : "--" ∉ args := fun hm => h (.tail _ (.tail _ hm))
    simp only [List.cons_append, read?.eq_4, ih _ hargs, Option.bind_assoc]
  | case5 o arg args hend hlimit value hattached ih =>
    have hargs : "--" ∉ args := fun hm => h (.tail _ hm)
    simp only [List.cons_append, read?.eq_5 _ _ _ _ hend hlimit, hattached, ih _ hargs,
      Option.bind_assoc]
  | case6 o arg args hend hlimit hattached hswitch ih =>
    have hargs : "--" ∉ args := fun hm => h (.tail _ hm)
    simp only [List.cons_append, read?.eq_5 _ _ _ _ hend hlimit, hattached, if_pos hswitch,
      ih _ hargs, Option.bind_assoc]
  | case7 o arg args hend hlimit hattached hswitch hoption =>
    simp only [List.cons_append, read?.eq_5 _ _ _ _ hend hlimit, hattached, if_neg hswitch,
      if_pos hoption, Option.bind_none]
  | case8 o arg args hend hlimit hattached hswitch hoption ih =>
    have hargs : "--" ∉ args := fun hm => h (.tail _ hm)
    simp only [List.cons_append, read?.eq_5 _ _ _ _ hend hlimit, hattached, if_neg hswitch,
      if_neg hoption, ih _ hargs, Option.bind_assoc]

end Options

/-- The request with a formula to it, unless it has one. -/
def Request.give? (formula : String) : Request → Option Request
  | version => some .version
  | run verb switch limit none => some (.run verb switch limit (some formula))
  | run _ _ _ (some _) => none

theorem Options.map_setFormula? (verb : Verb) (limit : Option Nat) (o : Options)
    (formula : String) :
    ((o.setFormula? formula).map fun o =>
        Request.run verb o.switch ((o.limit.or limit).getD defaultLimit) o.formula) =
      (Request.run verb o.switch ((o.limit.or limit).getD defaultLimit) o.formula).give?
        formula := by
  obtain ⟨switch, last, found⟩ := o
  cases found <;> rfl

theorem readRequest?_append (limit : Option Nat) (h : "--" ∉ args) (formula : String) :
    readRequest? limit (args ++ ["--", formula]) =
      (readRequest? limit args).bind (·.give? formula) := by
  fun_induction readRequest? limit args with
  | case1 limit => rfl
  | case2 limit args => rfl
  | case3 limit args => rfl
  | case4 limit =>
    rw [List.cons_append, List.nil_append, readRequest?.eq_5, readLimit?_hyphens]
    split <;> rfl
  | case5 limit value args hsome =>
    rw [List.cons_append, List.cons_append, readRequest?.eq_5, if_pos hsome, Option.bind_none]
  | case6 limit value args hnone ih =>
    have hargs : "--" ∉ args := fun hm => h (.tail _ (.tail _ hm))
    simp only [List.cons_append, readRequest?.eq_5, if_neg hnone, ih _ hargs, Option.bind_assoc]
  | case7 limit arg args hversion hshort hlimit value hattached hsome =>
    simp only [List.cons_append, readRequest?.eq_6 _ _ _ hversion hshort hlimit, hattached,
      if_pos hsome, Option.bind_none]
  | case8 limit arg args hversion hshort hlimit value hattached hnone ih =>
    have hargs : "--" ∉ args := fun hm => h (.tail _ hm)
    simp only [List.cons_append, readRequest?.eq_6 _ _ _ hversion hshort hlimit, hattached,
      if_neg hnone, ih _ hargs, Option.bind_assoc]
  | case9 limit arg args hversion hshort hlimit hattached =>
    have hargs : "--" ∉ args := fun hm => h (.tail _ hm)
    simp only [List.cons_append, readRequest?.eq_6 _ _ _ hversion hshort hlimit, hattached,
      Options.read?_append _ _ hargs, Option.bind_assoc, Option.map_bind, Option.bind_map,
      Function.comp_def, Options.map_setFormula?]

end RuleFormula.Command
