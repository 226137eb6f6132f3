import FlatLisp.Proofs.Scope
import FlatLisp.Proofs.Subexpression

/-!
# What an Evaluation Depends On

An evaluation looks up the names that its expression mentions, and no others. The names of the
special forms are not looked up at all, whatever they are bound to. So in two scopes in which the
other names of the expression stand for the same, the two evaluations do the same: they have the
same result and keep the same records, and either both reset the scope or both add the same
bindings.

The scopes change during the two runs, and with them what the names stand for. They change in the
same way: what one run has added the other has added too, and both have the name free before, so
that the names still stand for the same in the middle of a sequence.

## Main definitions

* `Expr.Mentions`: a name stands at the head of a node of an expression.
* `Outcome.Parallel`: what two runs that do the same leave of the scopes that they found.
* `Eval.LooksAt`: a computation depends on some names only.

## Main results

* `Expr.eval_looksAt`: an evaluation depends on the names that its expression mentions.
* `Expr.eval_of_agree`: the two evaluations, spelled out.
-/

namespace FlatLisp

/-- Two outcomes, of runs that found two scopes, are parallel: they have the same result and the
same records. A failure that resets leaves the scope of the beginning in both, and otherwise both
scopes have got the same new bindings. -/
structure Outcome.Parallel {α : Type} (env env' : Env) (outcome outcome' : Outcome α) : Prop where
  /-- The results are the same. -/
  result : outcome.result = outcome'.result
  /-- So are the records. -/
  records : outcome.records = outcome'.records
  /-- A failure that resets leaves the scope of the beginning. -/
  reset : outcome.resets = true → outcome.env = .initial ∧ outcome'.env = .initial
  /-- Without a reset the same bindings are new. -/
  extended : outcome.resets = false →
    ∃ new, env.Framed new outcome.env ∧ env'.Framed new outcome'.env

/-- A computation depends on some names only: its runs in two scopes in which these stand for the
same are parallel. -/
def Eval.LooksAt {α : Type} (names : String → Prop) (computation : Eval α) : Prop :=
  ∀ env env', (∀ name, names name → env.lookup name = env'.lookup name) →
    (computation.run env).Parallel env env' (computation.run env')

namespace Outcome.Parallel

variable {α β : Type} {env env' : Env}

/-- Runs that leave their scopes alone, with the same result and records, are parallel. -/
theorem of_unchanged {outcome outcome' : Outcome α} (hresult : outcome.result = outcome'.result)
    (hrecords : outcome.records = outcome'.records) (hresets : outcome.resets = false)
    (henv : outcome.env = env) (henv' : outcome'.env = env') :
    outcome.Parallel env env' outcome' where
  result := hresult
  records := hrecords
  reset h := absurd (hresets.symm.trans h) Bool.false_ne_true
  extended _ := ⟨fun _ => none, henv ▸ .refl env, henv' ▸ .refl env'⟩

/-- Runs that both fail and reset their scopes are parallel. -/
theorem of_reset {error : EvalError} {records : List Record} (hresets : error.resets = true) :
    (⟨.error error, .initial, records⟩ : Outcome α).Parallel env env'
      ⟨.error error, .initial, records⟩ where
  result := rfl
  records := rfl
  reset _ := ⟨rfl, rfl⟩
  extended h := absurd (h.symm.trans hresets) Bool.false_ne_true

/-- Parallel failures of a part are parallel failures of the whole. -/
theorem of_error {error : EvalError} {after after' : Env} {records records' : List Record}
    (h : (⟨.error error, after, records⟩ : Outcome α).Parallel env env'
      ⟨.error error, after', records'⟩) :
    (⟨.error error, after, records⟩ : Outcome β).Parallel env env'
      ⟨.error error, after', records'⟩ :=
  ⟨rfl, h.records, h.reset, h.extended⟩

/-- The same records in front keep outcomes parallel. -/
theorem after {outcome outcome' : Outcome α} (h : outcome.Parallel env env' outcome')
    (records : List Record) :
    (outcome.after records).Parallel env env' (outcome'.after records) :=
  ⟨h.result, congrArg (records ++ ·) h.records, h.reset, h.extended⟩

/-- What is new later is new in the end. -/
theorem trans {mid mid' : Env} {new : String → Option Binding} {outcome outcome' : Outcome α}
    (henv : env.Framed new mid) (henv' : env'.Framed new mid')
    (h : outcome.Parallel mid mid' outcome') : outcome.Parallel env env' outcome' where
  result := h.result
  records := h.records
  reset := h.reset
  extended hresets := by
    obtain ⟨later, hlater, hlater'⟩ := h.extended hresets
    exact ⟨_, henv.trans hlater, henv'.trans hlater'⟩

end Outcome.Parallel

namespace Eval.LooksAt

variable {α β : Type} {names : String → Prop}

theorem pure (a : α) : (pure a : Eval α).LooksAt names :=
  fun _ _ _ => .of_unchanged rfl rfl rfl rfl rfl

theorem note (record : Record) : (Eval.note record).LooksAt names :=
  fun _ _ _ => .of_unchanged rfl rfl rfl rfl rfl

theorem fail {error : EvalError} (h : error.resets = false) :
    (Eval.fail error : Eval α).LooksAt names :=
  fun _ _ _ => .of_unchanged rfl rfl h rfl rfl

/-- A sequence depends on the names that its parts depend on. These stand for the same in the
middle of the two runs, since what is new in one scope is new in the other. -/
theorem bind {first : Eval α} {next : α → Eval β} (hfirst : first.LooksAt names)
    (hnext : ∀ a, (next a).LooksAt names) : (first >>= next).LooksAt names := by
  intro env env' hagree
  have hparallel := hfirst env env' hagree
  rcases h : first.run env with ⟨result, mid, records⟩
  rcases h' : first.run env' with ⟨result', mid', records'⟩
  rw [h, h'] at hparallel
  obtain rfl : result = result' := hparallel.result
  obtain rfl : records = records' := hparallel.records
  rcases result with error | a
  · rw [run_bind_error next h, run_bind_error next h']
    exact hparallel.of_error
  · obtain ⟨new, hnew, hnew'⟩ := hparallel.extended rfl
    have hmid (name : String) (hname : names name) : mid.lookup name = mid'.lookup name := by
      rw [hnew.lookup, hnew'.lookup, hagree name hname]
    rw [run_bind_ok next h, run_bind_ok next h']
    exact ((hnext a mid mid' hmid).trans hnew hnew').after records

/-- A call by name depends on that name. -/
theorem call {name : String} (hname : names name) (args : List Atom) :
    (Eval.call name args).LooksAt names := by
  intro env env' hagree
  rw [call_run, call_run, ← Env.call_congr (hagree name hname) args]
  rcases env.call name args with cause | e
  · exact .of_reset rfl
  · exact .of_unchanged rfl rfl rfl rfl rfl

/-- A symbol with operands depends on its name, and on what its operands depend on. -/
theorem callSymbol {name : String} (hname : names name) {args : Eval (List Atom)}
    (hargs : args.LooksAt names) : (Expr.callSymbol name args).LooksAt names := by
  intro env env' hagree
  rcases hlookup : env.lookup name with _ | e | p
  all_goals have hlookup' := (hagree name hname).symm.trans hlookup
  · rw [Expr.run_callSymbol_of_unbound hlookup, Expr.run_callSymbol_of_unbound hlookup']
    exact .of_unchanged rfl rfl rfl rfl rfl
  · rw [Expr.run_callSymbol_of_value hlookup, Expr.run_callSymbol_of_value hlookup']
    exact .of_unchanged rfl rfl rfl rfl rfl
  · rw [Expr.run_callSymbol_of_procedure hlookup, Expr.run_callSymbol_of_procedure hlookup']
    have happly (args : List Atom) :
        (Eval.note (.applying name args) >>= fun _ => Eval.call name args).LooksAt names :=
      (note _).bind fun _ => call hname args
    exact hargs.bind happly env env' hagree

/-- A definition depends on its name, unless that is reserved, and on what its body depends on. -/
theorem defineSymbol {name : String} {body : Eval Expr}
    (hname : SpecialForm.ofName? name = none → names name) (hbody : body.LooksAt names) :
    (Expr.defineSymbol name body).LooksAt names := by
  intro env env' hagree
  rcases hform : SpecialForm.ofName? name with _ | form
  · have hsame : env.contains name = env'.contains name := by
      rw [Env.contains, Env.contains, hagree name (hname hform)]
    rcases hfree : env.contains name with _ | _
    all_goals have hfree' := hsame.symm.trans hfree
    · have hparallel := hbody env env' hagree
      rcases h : body.run env with ⟨result, mid, records⟩
      rcases h' : body.run env' with ⟨result', mid', records'⟩
      rw [h, h'] at hparallel
      obtain rfl : result = result' := hparallel.result
      obtain rfl : records = records' := hparallel.records
      rcases result with error | value
      · rw [Expr.run_defineSymbol_of_error hfree hform h,
          Expr.run_defineSymbol_of_error hfree' hform h']
        exact hparallel
      · obtain ⟨new, hnew, hnew'⟩ := hparallel.extended rfl
        rw [Expr.run_defineSymbol_of_ok hfree hform h, Expr.run_defineSymbol_of_ok hfree' hform h']
        refine ⟨rfl, rfl, fun hresets => absurd hresets (by simp [Outcome.resets]), fun _ => ?_⟩
        exact ⟨_, hnew.define hfree (.value value), hnew'.define hfree' (.value value)⟩
    · rw [Expr.run_defineSymbol_of_taken (Or.inl hfree),
        Expr.run_defineSymbol_of_taken (Or.inl hfree')]
      exact .of_reset rfl
  · have htaken : SpecialForm.ofName? name ≠ none := by simp [hform]
    rw [Expr.run_defineSymbol_of_taken (Or.inr htaken),
      Expr.run_defineSymbol_of_taken (Or.inr htaken)]
    exact .of_reset rfl

end Eval.LooksAt

namespace Expr

/-- A name stands at the head of a node of an expression. -/
def Mentions (e : Expr) (name : String) : Prop :=
  ∃ children, Within ⟨some (.symbol name), children⟩ e

/-- The names that a node mentions: its own, and those of its children. -/
theorem mentions_iff {head : Option Atom} {children : List Expr} {name : String} :
    Mentions ⟨head, children⟩ name ↔
      head = some (.symbol name) ∨ ∃ c ∈ children, c.Mentions name := by
  constructor
  · rintro ⟨operands, hwithin⟩
    cases hwithin with
    | refl => exact Or.inl rfl
    | child hc hwithin => exact Or.inr ⟨_, hc, operands, hwithin⟩
  · rintro (rfl | ⟨c, hc, operands, hwithin⟩)
    · exact ⟨children, .refl _⟩
    · exact ⟨operands, .child hc hwithin⟩

/-- The target of a definition is mentioned. -/
theorem mentions_of_definition {e : Expr} {name : String} {body : Expr}
    (h : Within (definition name body) e) : e.Mentions name :=
  ⟨[], Within.of_mem (List.mem_cons_self ..) h⟩

/-- The parts of an evaluation depend on the names that are mentioned, reserved ones apart. -/
theorem keeps_looksAt {e : Expr} {names : String → Prop}
    (hnames : ∀ name, e.Mentions name → SpecialForm.ofName? name = none → names name) :
    e.Keeps fun _ computation => computation.LooksAt names where
  pure := Eval.LooksAt.pure
  fail _ h := Eval.LooksAt.fail h
  note e := Eval.LooksAt.note (.evaluating e)
  bind := Eval.LooksAt.bind
  call name children hform hwithin hargs := hargs.callSymbol (hnames name ⟨children, hwithin⟩ hform)
  define name _ hwithin hbody :=
    hbody.defineSymbol (hnames name (mentions_of_definition hwithin))

/-- **An evaluation depends on the names that its expression mentions**, reserved ones apart. -/
theorem eval_looksAt (e : Expr) :
    e.eval.LooksAt fun name => e.Mentions name ∧ ∀ form : SpecialForm, form.name ≠ name :=
  (keeps_looksAt fun _ hname hform => ⟨hname, SpecialForm.ofName?_eq_none_iff.mp hform⟩).eval

/-- **Evaluations in two scopes that agree.** If every name that an expression mentions, the names
of the special forms apart, is free in both scopes or stands for the same in both, then the
evaluations have the same result and keep the same records. They both leave the scope of the
beginning, or both leave the scope that they found beside the same new bindings. -/
theorem eval_of_agree {e : Expr} {env env' : Env}
    (h : ∀ name, e.Mentions name → (∀ form : SpecialForm, form.name ≠ name) →
      env.lookup name = env'.lookup name) :
    (e.eval.run env).result = (e.eval.run env').result ∧
      (e.eval.run env).records = (e.eval.run env').records ∧
      ((e.eval.run env).env = .initial ∧ (e.eval.run env').env = .initial ∨
        ∃ new, env.Framed new (e.eval.run env).env ∧ env'.Framed new (e.eval.run env').env) := by
  have hparallel := e.eval_looksAt env env' fun name hname => h name hname.1 hname.2
  refine ⟨hparallel.result, hparallel.records, ?_⟩
  rcases hresets : (e.eval.run env).resets with _ | _
  · exact Or.inr (hparallel.extended hresets)
  · exact Or.inl (hparallel.reset hresets)

/-- A definition of `x` as the value of `y`, beside a binding of `z`, and where `begin` is bound. -/
theorem eval_of_agree_definition :
    let e := definition "x" (leaf (.symbol "y"))
    let env := (Env.initial.insert "y" (.value empty)).insert "z" (.value empty)
    let env' := (Env.initial.insert "y" (.value empty)).insert "begin" (.value empty)
    (∀ name, e.Mentions name → (∀ form : SpecialForm, form.name ≠ name) →
      env.lookup name = env'.lookup name) ∧
    (e.eval.run env).result = (e.eval.run env').result ∧
      ∃ new, env.Framed new (e.eval.run env).env ∧ env'.Framed new (e.eval.run env').env := by
  intro e env env'
  have hagree (name : String) (hname : e.Mentions name)
      (hform : ∀ form : SpecialForm, form.name ≠ name) : env.lookup name = env'.lookup name := by
    have hbegin : name ≠ "begin" := (hform .sequence).symm
    have hz : name ≠ "z" := by
      rintro rfl
      simp [e, definition, leaf, mentions_iff, SpecialForm.name] at hname
    simp only [env, env', Env.lookup_insert, if_neg hz, if_neg hbegin]
  obtain ⟨hresult, -, hreset | hnew⟩ := eval_of_agree hagree
  · have hz := congrArg (Env.contains · "z") hreset.1
    exact absurd hz (by decide)
  · exact ⟨hagree, hresult, hnew⟩

end Expr

end FlatLisp
