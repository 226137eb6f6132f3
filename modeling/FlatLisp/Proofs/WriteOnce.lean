import FlatLisp.Proofs.SubEvaluation

/-!
# Names are Written Once

A definition tests that its name is free, evaluates its body, and then stores the value. The
test and the store are apart, so that it is not clear that the name is still free when the value
is stored. It is not if the body has stored something under the same name meanwhile, and this is
the only way: all other definitions find the name free, and all other attempts to define a name
that is bound fail and reset the scope.

To show this, what a run does is traced to the definitions that did it. `Eval.Traceable` lists
what a property of runs must satisfy to be traced.

## Main results

* `Evaluation.exists_stores`: a name that is new has been stored by a definition.
* `Evaluation.defining_mem_records_iff`: the definitions recorded are those that are reached.
* `Evaluation.writesOnce_iff`: when every value is stored under a name that is free.
-/

namespace FlatLisp

/-! ### Stores -/

namespace Evaluation

/-- A definition whose name is free when it begins comes to store a value under it. The last
scope is the one in which the value is stored. -/
inductive Stores : Evaluation → String → Expr → Env → Prop
  | intro {name : String} {body value : Expr} {env scope : Env} {records : List Record} :
      env.contains name = false → SpecialForm.ofName? name = none →
      body.eval.run env = ⟨.ok value, scope, records⟩ →
      Stores ⟨Expr.definition name body, env⟩ name value scope

/-- No value that is stored replaces another. The definitions looked at are all that store
something, as `defining_mem_records_iff` says. -/
def WritesOnce (t : Evaluation) : Prop :=
  ∀ s name value scope, Reaches t s → Stores s name value scope → scope.contains name = false

/-- What a definition leaves when it stores a value. -/
theorem Stores.run {s : Evaluation} {name : String} {value : Expr} {scope : Env}
    (h : Stores s name value scope) :
    ∃ records, s.outcome =
      ⟨.ok value, scope.insert name (.value value), records ++ [.defining name value]⟩ := by
  obtain ⟨hfree, hname, hbody⟩ := h
  rw [Expr.definition, outcome_eq, Expr.evalHead_definition (SpecialForm.ofName?_name _),
    Expr.evalDefinition_leaf, Expr.run_defineSymbol_of_ok hfree hname hbody]
  exact ⟨_, congrArg _ (List.append_assoc ..).symm⟩

/-- Inversion of a definition that starts an evaluation. -/
theorem Starts.definition_inv {name : String} {body : Expr} {env : Env} {u : Evaluation}
    (h : Starts ⟨Expr.definition name body, env⟩ u) : u = ⟨body, env⟩ := by
  generalize ht : (⟨Expr.definition name body, env⟩ : Evaluation) = t at h
  cases h with
  | element _ => simp [Expr.definition, SpecialForm.name] at ht
  | condition => simp [Expr.definition] at ht
  | branch _ _ => simp [Expr.definition] at ht
  | body _ _ =>
      simp only [Expr.definition, Expr.leaf, Evaluation.mk.injEq, Expr.mk.injEq, List.cons.injEq,
        Option.some.injEq, Atom.symbol.injEq, and_true, true_and] at ht
      obtain ⟨⟨-, rfl⟩, rfl⟩ := ht
      rfl
  | operand hname _ _ =>
      simp only [Expr.definition, Evaluation.mk.injEq, Expr.mk.injEq, Option.some.injEq,
        Atom.symbol.injEq] at ht
      rw [← ht.1.1, SpecialForm.ofName?_name] at hname
      exact absurd hname (by simp)

end Evaluation

/-! ### Tracing -/

/-- An outcome that tells of no store: the scope is the old one or reset, and no definition is
recorded. -/
structure Outcome.Silent {α : Type} (env : Env) (outcome : Outcome α) : Prop where
  /-- The scope is the old one or reset. -/
  scope : outcome.env = env ∨ outcome.resets = true
  /-- No definition is recorded. -/
  records : ∀ name value, Record.defining name value ∉ outcome.records

/-- A property of runs that can be traced to a store: it does not hold of a run that tells of no
store, and it holds of a sequence only if it holds of one of its two parts. -/
structure Eval.Traceable (Q : ∀ α : Type, Eval α → Env → Prop) : Prop where
  /-- Only the outcome counts. -/
  congr : ∀ {α : Type} {first second : Eval α} {env : Env},
    first.run env = second.run env → Q α first env → Q α second env
  /-- A run that tells of no store does not have the property. -/
  silent : ∀ {α : Type} {computation : Eval α} {env : Env},
    (computation.run env).Silent env → ¬Q α computation env
  /-- One of the parts of a sequence has the property if the sequence has. -/
  bind : ∀ {α β : Type} {first : Eval α} {next : α → Eval β} {env : Env},
    Q β (first >>= next) env → Q α first env ∨
      ∃ a mid records, first.run env = ⟨.ok a, mid, records⟩ ∧ Q β (next a) mid

/-- A computation adds a name to a scope where it is free. -/
structure Eval.Adds {α : Type} (computation : Eval α) (name : String) (env : Env) : Prop where
  /-- The scope is not reset. -/
  no_reset : (computation.run env).resets = false
  /-- The name is free before. -/
  free : env.contains name = false
  /-- The name is bound after. -/
  bound : (computation.run env).env.contains name = true

namespace Eval.Traceable

/-- That a name is new can be traced. -/
theorem adds (name : String) : Traceable fun _ computation env => computation.Adds name env where
  congr hrun h := ⟨hrun ▸ h.no_reset, h.free, hrun ▸ h.bound⟩
  silent hsilent h := by
    rcases hsilent.scope with henv | hresets
    · have hbound := h.bound
      rw [henv] at hbound
      exact absurd (h.free.symm.trans hbound) Bool.false_ne_true
    · exact absurd (h.no_reset.symm.trans hresets) Bool.false_ne_true
  bind {α β first next env} h := by
    obtain ⟨hresets, hfree, hbound⟩ := h
    rcases hrun : first.run env with ⟨error | a, mid, records⟩
    · rw [run_bind_error next hrun] at hresets hbound
      exact Or.inl ⟨by rw [hrun]; exact hresets, hfree, by rw [hrun]; exact hbound⟩
    · rw [run_bind_ok next hrun] at hresets hbound
      rcases hmid : mid.contains name with _ | _
      · exact Or.inr ⟨a, mid, records, rfl, hresets, hmid, hbound⟩
      · exact Or.inl ⟨by rw [hrun]; rfl, hfree, by rw [hrun]; exact hmid⟩

/-- That a definition is recorded can be traced. -/
theorem records (name : String) (value : Expr) :
    Traceable fun _ computation env =>
      Record.defining name value ∈ (computation.run env).records where
  congr hrun h := hrun ▸ h
  silent hsilent := hsilent.records name value
  bind {α β first next env} h := by
    rcases hrun : first.run env with ⟨error | a, mid, records⟩
    · rw [run_bind_error next hrun] at h
      exact Or.inl h
    · rw [run_bind_ok next hrun] at h
      rcases List.mem_append.mp h with hfirst | hnext
      · exact Or.inl hfirst
      · exact Or.inr ⟨a, mid, records, rfl, hnext⟩

variable {Q : ∀ α : Type, Eval α → Env → Prop} {α β : Type} {env : Env}

/-- A run that keeps no record and leaves the scope alone tells of no store. -/
theorem not_of_run (h : Traceable Q) {computation : Eval α} {result : Except EvalError α}
    (hrun : computation.run env = ⟨result, env, []⟩) : ¬Q α computation env := by
  refine h.silent ⟨Or.inl ?_, fun name value => ?_⟩
  · rw [hrun]
  · rw [hrun]
    exact List.not_mem_nil

/-- A map is not what a store is traced to. -/
theorem of_map (h : Traceable Q) {f : α → β} {first : Eval α} (hQ : Q β (f <$> first) env) :
    Q α first env := by
  rw [← bind_pure_comp] at hQ
  rcases h.bind hQ with hfirst | ⟨a, mid, _, -, hpure⟩
  · exact hfirst
  · exact absurd hpure (h.not_of_run rfl)

/-- A call by name tells of no store. -/
theorem not_call (h : Traceable Q) (name : String) (args : List Atom) :
    ¬Q Expr (Eval.note (.applying name args) >>= fun _ => Eval.call name args) env := by
  refine h.silent ?_
  rw [run_note_bind, call_run]
  rcases env.call name args with cause | e
  · exact ⟨Or.inr rfl, by simp [Outcome.after]⟩
  · exact ⟨Or.inl rfl, by simp [Outcome.after]⟩

/-- What a row in sequence does is done by one of its elements. -/
theorem of_evalSequence (h : Traceable Q) {row : List Expr} {value : Expr}
    (hQ : Q Expr (Expr.evalSequence value row) env) :
    ∃ front e back mid, row = front ++ e :: back ∧ Passes (fun _ => True) env front mid ∧
      Q Expr e.eval mid := by
  induction row generalizing value env with
  | nil =>
      rw [Expr.evalSequence_nil] at hQ
      exact absurd hQ (h.not_of_run rfl)
  | cons e rest ih =>
      rw [Expr.evalSequence_cons] at hQ
      rcases h.bind hQ with hfirst | ⟨value', mid, records, hrun, hnext⟩
      · exact ⟨[], e, rest, env, rfl, .nil env, hfirst⟩
      · obtain ⟨front, c, back, last, rfl, hpasses, hfound⟩ := ih hnext
        exact ⟨e :: front, c, back, last, rfl, .cons hrun trivial hpasses, hfound⟩

/-- What a row of operands does is done by one of them. -/
theorem of_evalOperands (h : Traceable Q) {row : List Expr} {procedure : String}
    {position : Nat} (hQ : Q (List Atom) (Expr.evalOperands procedure position row) env) :
    ∃ front e back mid, row = front ++ e :: back ∧
      Passes (fun value => value.head ≠ none) env front mid ∧ Q Expr e.eval mid := by
  induction row generalizing position env with
  | nil =>
      rw [Expr.evalOperands_nil] at hQ
      exact absurd hQ (h.not_of_run rfl)
  | cons e rest ih =>
      rw [Expr.evalOperands_cons] at hQ
      rcases h.bind hQ with hfirst | ⟨value, mid, records, hrun, hnext⟩
      · exact ⟨[], e, rest, env, rfl, .nil env, hfirst⟩
      rcases hhead : value.head with _ | atom
      · rw [Expr.collect, hhead] at hnext
        exact absurd hnext (h.not_of_run rfl)
      · rw [Expr.collect_of_head hhead] at hnext
        obtain ⟨front, c, back, last, rfl, hpasses, hfound⟩ := ih (h.of_map hnext)
        have htest : value.head ≠ none := by simp [hhead]
        exact ⟨e :: front, c, back, last, rfl, .cons hrun htest hpasses, hfound⟩

/-- What a choice does is done by the branch that is chosen. -/
theorem of_choose (h : Traceable Q) {consequent alternate value : Expr}
    (hQ : Q Expr (Expr.choose consequent alternate value) env) :
    ∃ b, value.head = some (.boolean b) ∧
      Q Expr (if b then consequent else alternate).eval env := by
  rcases hhead : value.head with _ | x | b | symbol
  · rw [Expr.choose, hhead] at hQ
    exact absurd hQ (h.not_of_run rfl)
  · rw [Expr.choose, hhead] at hQ
    exact absurd hQ (h.not_of_run rfl)
  · rw [Expr.choose_of_boolean hhead] at hQ
    exact ⟨b, rfl, hQ⟩
  · rw [Expr.choose, hhead] at hQ
    exact absurd hQ (h.not_of_run rfl)

/-- What a definition does is done by its body, or by the store of its value. -/
theorem of_defineSymbol (h : Traceable Q) {name : String} {body : Eval Expr}
    (hQ : Q Expr (Expr.defineSymbol name body) env) :
    env.contains name = false ∧ SpecialForm.ofName? name = none ∧
      (Q Expr body env ∨ ∃ value scope records, body.run env = ⟨.ok value, scope, records⟩ ∧
        Q Unit (Eval.define name value) scope) := by
  rcases Expr.taken_or_free env name with htaken | ⟨hfree, hname⟩
  · refine absurd hQ (h.silent ?_)
    rw [Expr.run_defineSymbol_of_taken htaken]
    exact ⟨Or.inr rfl, by simp⟩
  refine ⟨hfree, hname, ?_⟩
  rcases h.bind (h.congr (Expr.run_defineSymbol_of_free hfree hname) hQ) with
    hbody | ⟨value, scope, records, hrun, hnext⟩
  · exact Or.inl hbody
  rcases h.bind hnext with hdefine | ⟨_, _, _, -, hpure⟩
  · exact Or.inr ⟨value, scope, records, hrun, hdefine⟩
  · exact absurd hpure (h.not_of_run rfl)

/-- What an evaluation does is done by the store that it makes, or by an evaluation that it
starts. -/
theorem stores_or_starts (h : Traceable Q) {t : Evaluation} (hQ : Q Expr t.expr.eval t.env) :
    (∃ name value scope, t.Stores name value scope ∧ Q Unit (Eval.define name value) scope) ∨
      ∃ u, t.Starts u ∧ Q Expr u.expr.eval u.env := by
  obtain ⟨⟨head, children⟩, env⟩ := t
  rw [Expr.eval_node] at hQ
  rcases h.bind hQ with hnote | ⟨_, mid, _, hnote, hQ⟩
  · exact absurd hnote (h.silent ⟨Or.inl rfl, by simp⟩)
  obtain rfl : env = mid := congrArg Outcome.env hnote
  rcases head with _ | x | b | symbol
  · exact absurd hQ (h.not_of_run rfl)
  · exact absurd hQ (h.not_of_run rfl)
  · exact absurd hQ (h.not_of_run rfl)
  rcases hform : SpecialForm.ofName? symbol with _ | form
  · rw [Expr.evalHead_call hform] at hQ
    rcases hlookup : env.lookup symbol with _ | e | p
    · exact absurd hQ (h.not_of_run (Expr.run_callSymbol_of_unbound hlookup))
    · exact absurd hQ (h.not_of_run (Expr.run_callSymbol_of_value hlookup))
    · rcases h.bind (h.congr (Expr.run_callSymbol_of_procedure hlookup) hQ) with
        hargs | ⟨args, _, _, -, hcall⟩
      · obtain ⟨front, e, back, mid, rfl, hpasses, hfound⟩ := h.of_evalOperands hargs
        exact Or.inr ⟨⟨e, mid⟩, .operand hform hlookup hpasses, hfound⟩
      · exact absurd hcall (h.not_call symbol args)
  obtain rfl := SpecialForm.name_of_ofName? hform
  cases form with
  | sequence =>
      rw [Expr.evalHead_sequence hform] at hQ
      obtain ⟨front, e, back, mid, rfl, hpasses, hfound⟩ := h.of_evalSequence hQ
      exact Or.inr ⟨⟨e, mid⟩, .element hpasses, hfound⟩
  | conditional =>
      rw [Expr.evalHead_conditional hform] at hQ
      obtain ⟨condition, consequent, alternate, rfl⟩ | ⟨cause, heval⟩ :=
        Expr.evalConditional_cases children
      · rw [Expr.evalConditional_three] at hQ
        rcases h.bind hQ with hcondition | ⟨value, mid, records, hrun, hchoice⟩
        · exact Or.inr ⟨⟨condition, env⟩, .condition, hcondition⟩
        · obtain ⟨b, hvalue, hbranch⟩ := h.of_choose hchoice
          exact Or.inr ⟨⟨_, mid⟩, .branch hrun hvalue, hbranch⟩
      · rw [heval] at hQ
        exact absurd hQ (h.not_of_run rfl)
  | definition =>
      rw [Expr.evalHead_definition hform] at hQ
      obtain ⟨name, body, rfl⟩ | ⟨cause, heval⟩ := Expr.evalDefinition_cases children
      · rw [Expr.evalDefinition_leaf] at hQ
        obtain ⟨hfree, hname, hbody | ⟨value, scope, records, hrun, hdefine⟩⟩ :=
          h.of_defineSymbol hQ
        · exact Or.inr ⟨⟨body, env⟩, .body hfree hname, hbody⟩
        · exact Or.inl ⟨name, value, scope, .intro hfree hname hrun, hdefine⟩
      · rw [heval] at hQ
        exact absurd hQ (h.not_of_run rfl)

/-- What an evaluation does is done by a store that it reaches. -/
theorem exists_stores (h : Traceable Q) {t : Evaluation} (hQ : Q Expr t.expr.eval t.env) :
    ∃ s name value scope, t.Reaches s ∧ s.Stores name value scope ∧
      Q Unit (Eval.define name value) scope := by
  obtain ⟨e, env⟩ := t
  induction e using Expr.induction generalizing env with
  | node head children ih =>
      -- What is started is a child, so that the induction goes through for every scope.
      rcases h.stores_or_starts hQ with ⟨name, value, scope, hstores, hdefine⟩ | ⟨u, hstart, hu⟩
      · exact ⟨_, name, value, scope, .refl, hstores, hdefine⟩
      · obtain ⟨s, name, value, scope, hreach, hstores, hdefine⟩ := ih u.expr hstart.mem u.env hu
        exact ⟨s, name, value, scope, .head hstart hreach, hstores, hdefine⟩

end Eval.Traceable

namespace Evaluation

variable {t : Evaluation} {name : String} {value : Expr}

/-- A name that an evaluation adds is stored by a definition that it reaches. -/
theorem exists_stores (h : t.expr.eval.Adds name t.env) :
    ∃ s value scope, Reaches t s ∧ Stores s name value scope := by
  obtain ⟨s, target, value, scope, hreach, hstores, hadds⟩ :=
    (Eval.Traceable.adds name).exists_stores h
  rcases Env.contains_insert.mp hadds.bound with rfl | hscope
  · exact ⟨s, value, scope, hreach, hstores⟩
  · exact absurd (hadds.free.symm.trans hscope) Bool.false_ne_true

/-- The definitions that a run records are those that it reaches and that store a value. -/
theorem defining_mem_records_iff :
    Record.defining name value ∈ t.outcome.records ↔
      ∃ s scope, Reaches t s ∧ Stores s name value scope := by
  constructor
  · intro h
    obtain ⟨s, target, value', scope, hreach, hstores, hrecord⟩ :=
      (Eval.Traceable.records name value).exists_stores h
    obtain ⟨rfl, rfl⟩ : name = target ∧ value = value' := by simpa using hrecord
    exact ⟨s, scope, hreach, hstores⟩
  · rintro ⟨s, scope, hreach, hstores⟩
    obtain ⟨records, hs⟩ := hstores.run
    refine hreach.records_subset ?_
    rw [hs]
    exact List.mem_append_right records (List.mem_singleton.mpr rfl)

/-- What is stored somewhere inside a definition is bound when the definition stores its own
value. -/
theorem Stores.contains_of_inside {s u : Evaluation} {other : String} {value' : Expr}
    {scope scope' : Env} (h : Stores s name value scope) (hinside : ReachesInside s u)
    (hu : Stores u other value' scope') : scope.contains other = true := by
  obtain ⟨hfree, hname, hbody⟩ := h
  obtain ⟨v, hstart, hreach⟩ := Relation.TransGen.head'_iff.mp hinside
  obtain rfl := hstart.definition_inv
  obtain ⟨records, hrun⟩ := hu.run
  have hbound : u.outcome.env.contains other = true := by
    rw [hrun]
    exact Env.contains_insert.mpr (Or.inl rfl)
  have hscope := Reaches.contains hreach hbound (by rw [outcome, hbody]; rfl)
  rw [outcome, hbody] at hscope
  exact hscope

/-- A name that is bound when a definition of it stores its value is stored somewhere inside the
definition. -/
theorem Stores.exists_inside {s : Evaluation} {scope : Env} (h : Stores s name value scope)
    (hscope : scope.contains name = true) :
    ∃ u value' scope', ReachesInside s u ∧ Stores u name value' scope' := by
  cases h with
  | @intro name body value env scope records hfree hname hbody =>
      have hadds : body.eval.Adds name env :=
        ⟨by rw [hbody]; rfl, hfree, by rw [hbody]; exact hscope⟩
      obtain ⟨u, value', scope', hreach, hu⟩ := exists_stores (t := ⟨body, env⟩) hadds
      have hstart : Starts ⟨Expr.definition name body, env⟩ ⟨body, env⟩ := .body hfree hname
      exact ⟨u, value', scope', Relation.TransGen.head' hstart hreach, hu⟩

/-- A definition of a name that is bound when it begins fails and resets the scope, and with it
fails all that it is a part of. -/
theorem Reaches.outcome_of_bound {body : Expr} {env : Env}
    (h : Reaches t ⟨Expr.definition name body, env⟩) (hbound : env.contains name = true) :
    t.outcome.result = .error (.alreadyDefined name) ∧ t.outcome.env = .initial := by
  have hrun : outcome ⟨Expr.definition name body, env⟩ =
      ⟨.error (.alreadyDefined name), .initial,
        [.evaluating (Expr.definition name body), .redefinition name]⟩ := by
    rw [Expr.definition, outcome_eq, Expr.evalHead_definition (SpecialForm.ofName?_name _),
      Expr.evalDefinition_leaf, Expr.run_defineSymbol_of_taken (Or.inl hbound)]
    rfl
  have hwhole := h.outcome_of_error (congrArg Outcome.result hrun)
  rw [hrun] at hwhole
  exact hwhole

/-- **When names are written once.** Every value that an evaluation stores is stored under a name
that is free at that moment if and only if no definition that stores a value has stored another
under the same name somewhere inside. The second half needs no such condition: a definition that
finds its name bound fails, and the whole fails with it and resets the scope. -/
theorem writesOnce_iff (t : Evaluation) :
    (WritesOnce t ↔
      ∀ s name value scope, Reaches t s → Stores s name value scope →
        ¬∃ u value' scope', ReachesInside s u ∧ Stores u name value' scope') ∧
    ∀ name body env, Reaches t ⟨Expr.definition name body, env⟩ → env.contains name = true →
      t.outcome.result = .error (.alreadyDefined name) ∧ t.outcome.env = .initial := by
  refine ⟨⟨?_, ?_⟩, fun name body env hreach hbound => hreach.outcome_of_bound hbound⟩
  · rintro honce s name value scope hreach hstores ⟨u, value', scope', hinside, hu⟩
    have hfree := honce s name value scope hreach hstores
    have hbound := hstores.contains_of_inside hinside hu
    exact absurd (hfree.symm.trans hbound) Bool.false_ne_true
  · intro hnone s name value scope hreach hstores
    rcases hscope : scope.contains name with _ | _
    · rfl
    · exact absurd (hstores.exists_inside hscope) (hnone s name value scope hreach hstores)

/-- A definition of `x` in the body of a definition of `x`. -/
def nested : Evaluation :=
  ⟨Expr.definition "x" ⟨some (.symbol SpecialForm.sequence.name),
    [Expr.definition "x" (.leaf (.number 1)), .leaf (.number 2)]⟩, .initial⟩

/-- Some evaluations write a name twice: the outer value replaces the inner one, and nothing
fails. -/
theorem not_writesOnce_nested :
    ¬WritesOnce nested ∧ nested.outcome.result = .ok (.leaf (.number 2)) ∧
      nested.outcome.env.lookup "x" = some (.value (.leaf (.number 2))) := by
  refine ⟨fun h => ?_, rfl, rfl⟩
  have hstores : Stores nested "x" (.leaf (.number 2))
      (Env.initial.insert "x" (.value (.leaf (.number 1)))) :=
    .intro (by decide) (by decide) rfl
  exact absurd (h nested "x" _ _ .refl hstores) (by decide)

end Evaluation

end FlatLisp
