import FlatLisp.Proofs.Scope
import FlatLisp.Proofs.Subexpression

/-!
# What an Evaluation Does to the Scope

An evaluation either resets the scope or lets it grow. Which of the two is told by its result:
after the two failures that reset, the scope is the one of the beginning, whatever was defined
before the failure; after anything else no binding is lost or replaced, and the names that are
new are targets of definitions in the expression.

The law is first shown of the parts of an evaluation. That a definition replaces nothing needs
an argument, since its name is tested before its value is evaluated and bound after that: what
was bound at the test is bound to the same at the end, and the name was not.

## Main results

* `Eval.Grows`: the law, for a computation and the names that it may add.
* `Expr.eval_grows`: every evaluation obeys it.
* `Expr.eval_resets_or_extends`: the law spelled out.
-/

namespace FlatLisp

/-- What a computation may leave of the scope that it found: the scope of the beginning after a
failure that resets, and otherwise a larger scope, where only `names` are new. -/
structure Outcome.Grows {α : Type} (names : String → Prop) (env : Env) (outcome : Outcome α) :
    Prop where
  /-- A failure that resets leaves the scope of the beginning. -/
  reset : outcome.resets = true → outcome.env = .initial
  /-- Without a reset every binding is kept. -/
  kept : outcome.resets = false → env ≤ outcome.env
  /-- Without a reset only these names are new. -/
  new : outcome.resets = false → ∀ name, outcome.env.contains name = true →
    env.contains name = true ∨ names name

/-- A computation that resets the scope or lets it grow, from whatever scope it starts. -/
def Eval.Grows {α : Type} (names : String → Prop) (computation : Eval α) : Prop :=
  ∀ env, (computation.run env).Grows names env

namespace Outcome.Grows

variable {α β : Type} {names : String → Prop} {env : Env}

/-- To leave the scope alone, without a reset, is to let it grow. -/
theorem of_unchanged {outcome : Outcome α} (hresets : outcome.resets = false)
    (henv : outcome.env = env) : outcome.Grows names env where
  reset h := absurd h (by simp [hresets])
  kept _ := henv ▸ le_refl env
  new _ name hname := Or.inl (henv ▸ hname)

/-- To reset the scope is allowed to the failures that do. -/
theorem of_reset {outcome : Outcome α} (hresets : outcome.resets = true)
    (henv : outcome.env = .initial) : outcome.Grows names env where
  reset _ := henv
  kept h := absurd h (by simp [hresets])
  new h := absurd h (by simp [hresets])

/-- The law does not see the records. -/
theorem after {outcome : Outcome α} (h : outcome.Grows names env) (records : List Record) :
    (outcome.after records).Grows names env :=
  ⟨h.reset, h.kept, h.new⟩

/-- A failure does to the scope what it did as the failure of a part. -/
theorem of_error {error : EvalError} {after : Env} {records more : List Record}
    (h : (⟨.error error, after, records⟩ : Outcome α).Grows names env) :
    (⟨.error error, after, more⟩ : Outcome β).Grows names env :=
  ⟨h.reset, h.kept, h.new⟩

/-- Growth adds up: what grows from a larger scope grows from the smaller one. -/
theorem trans {mid : Env} {outcome : Outcome α} (hle : env ≤ mid)
    (hnew : ∀ name, mid.contains name = true → env.contains name = true ∨ names name)
    (h : outcome.Grows names mid) : outcome.Grows names env where
  reset := h.reset
  kept hresets := le_trans hle (h.kept hresets)
  new hresets name hname := by
    rcases h.new hresets name hname with hmid | hadded
    · exact hnew name hmid
    · exact Or.inr hadded

end Outcome.Grows

namespace Eval.Grows

variable {α β : Type} {names : String → Prop}

theorem pure (a : α) : (pure a : Eval α).Grows names :=
  fun _ => Outcome.Grows.of_unchanged rfl rfl

theorem note (record : Record) : (Eval.note record).Grows names :=
  fun _ => Outcome.Grows.of_unchanged rfl rfl

theorem fail {error : EvalError} (h : error.resets = false) :
    (Eval.fail error : Eval α).Grows names :=
  fun _ => Outcome.Grows.of_unchanged h rfl

/-- A sequence grows if its parts do: a failure ends it, and growth adds up. -/
theorem bind {first : Eval α} {next : α → Eval β} (hfirst : first.Grows names)
    (hnext : ∀ a, (next a).Grows names) : (first >>= next).Grows names := by
  intro env
  have hgrows := hfirst env
  rcases h : first.run env with ⟨error | a, mid, records⟩
  · rw [h] at hgrows
    rw [run_bind_error next h]
    exact hgrows.of_error
  · rw [h] at hgrows
    rw [run_bind_ok next h]
    exact ((hnext a mid).trans (hgrows.kept rfl) (hgrows.new rfl)).after records

/-- A call by name resets the scope if it fails, and leaves it alone otherwise. -/
theorem call (name : String) (args : List Atom) : (Eval.call name args).Grows names := by
  intro env
  rw [call_run]
  rcases env.call name args with cause | e
  · exact Outcome.Grows.of_reset rfl rfl
  · exact Outcome.Grows.of_unchanged rfl rfl

/-- So does a call with its record. -/
theorem apply (name : String) (args : List Atom) :
    (Eval.note (.applying name args) >>= fun _ => Eval.call name args).Grows names :=
  (note _).bind fun _ => call name args

/-- A symbol with operands grows the scope only by what its operands do. -/
theorem callSymbol (name : String) {args : Eval (List Atom)} (hargs : args.Grows names) :
    (Expr.callSymbol name args).Grows names := by
  intro env
  rcases hlookup : env.lookup name with _ | e | p
  · rw [Expr.run_callSymbol_of_unbound hlookup]
    exact Outcome.Grows.of_unchanged rfl rfl
  · rw [Expr.run_callSymbol_of_value hlookup]
    exact Outcome.Grows.of_unchanged rfl rfl
  · rw [Expr.run_callSymbol_of_procedure hlookup]
    exact hargs.bind (apply name) env

/-- A definition adds its name, unless that is bound or reserved. Nothing that was bound at the
test is replaced, for the name was free then. -/
theorem defineSymbol {name : String} {body : Eval Expr} (hbody : body.Grows names)
    (hname : SpecialForm.ofName? name = none → names name) :
    (Expr.defineSymbol name body).Grows names := by
  intro env
  rcases Expr.taken_or_free env name with htaken | ⟨hfree, hopen⟩
  · rw [Expr.run_defineSymbol_of_taken htaken]
    exact Outcome.Grows.of_reset rfl rfl
  have hgrows := hbody env
  rcases h : body.run env with ⟨error | value, mid, records⟩
  · rw [h] at hgrows
    rw [Expr.run_defineSymbol_of_error hfree hopen h]
    exact hgrows
  · rw [h] at hgrows
    rw [Expr.run_defineSymbol_of_ok hfree hopen h]
    refine ⟨fun h => absurd h (by simp [Outcome.resets]), fun _ => ?_, fun _ other hother => ?_⟩
    -- `body` may have bound `name`, but not over a binding of `env`, where `name` was free.
    · exact Env.le_insert (hgrows.kept rfl) hfree
    · rcases Env.contains_insert.mp hother with rfl | hmid
      · exact Or.inr (hname hopen)
      · exact hgrows.new rfl other hmid

end Eval.Grows

/-- A computation under which what is bound stays bound, unless it resets the scope. -/
def Eval.KeepsNames {α : Type} (computation : Eval α) : Prop :=
  ∀ env name, env.contains name = true → (computation.run env).resets = false →
    (computation.run env).env.contains name = true

/-- What grows keeps names. -/
theorem Eval.Grows.keepsNames {α : Type} {names : String → Prop} {computation : Eval α}
    (h : computation.Grows names) : computation.KeepsNames :=
  fun env _ hname hresets => Env.contains_mono ((h env).kept hresets) hname

namespace Expr

/-- The names that stand as targets of definitions in an expression, without the reserved ones:
those that an evaluation may add to the scope. -/
def Defines (e : Expr) (name : String) : Prop :=
  (∃ body, Within (definition name body) e) ∧ ∀ form : SpecialForm, form.name ≠ name

/-- The parts of an evaluation let the scope grow by the targets of definitions only. -/
theorem keeps_grows {e : Expr} {names : String → Prop}
    (hnames : ∀ name, e.Defines name → names name) :
    e.Keeps fun _ computation => computation.Grows names where
  pure := Eval.Grows.pure
  fail _ h := Eval.Grows.fail h
  note e := Eval.Grows.note (.evaluating e)
  bind := Eval.Grows.bind
  call name _ _ _ hargs := Eval.Grows.callSymbol name hargs
  define name body hwithin hbody := hbody.defineSymbol fun hname =>
    hnames name ⟨⟨body, hwithin⟩, SpecialForm.ofName?_eq_none_iff.mp hname⟩

/-- Every evaluation resets the scope or lets it grow. -/
theorem eval_grows (e : Expr) : e.eval.Grows e.Defines :=
  (keeps_grows fun _ h => h).eval

/-- So does every row of operands. -/
theorem evalOperands_grows (procedure : String) (position : Nat) (row : List Expr) :
    (evalOperands procedure position row).Grows fun _ => True :=
  have hkeeps (e : Expr) : e.Keeps fun _ computation => computation.Grows fun _ => True :=
    keeps_grows fun _ _ => trivial
  (hkeeps empty).evalOperands (fun c _ => (hkeeps c).eval) procedure position

/-- **What an evaluation does to the scope**, whatever the scope and the tree are. After a
failure that resets, the scope is the one of the beginning. After a value or another failure
every binding is still there, the same as before, and a name that is new is the target of a
definition inside the expression and not reserved. -/
theorem eval_resets_or_extends (e : Expr) (env : Env) :
    ((e.eval.run env).resets = true → (e.eval.run env).env = .initial) ∧
    ((e.eval.run env).resets = false →
      (∀ name binding, env.lookup name = some binding →
        (e.eval.run env).env.lookup name = some binding) ∧
      ∀ name, (e.eval.run env).env.contains name = true → env.contains name = false →
        (∃ body, Within (definition name body) e) ∧ ∀ form : SpecialForm, form.name ≠ name) := by
  have hgrows := e.eval_grows env
  refine ⟨hgrows.reset, fun hresets => ⟨hgrows.kept hresets, fun name hname hfree => ?_⟩⟩
  rcases hgrows.new hresets name hname with hbound | hdefines
  · exact absurd (hfree.symm.trans hbound) Bool.false_ne_true
  · exact hdefines

end Expr

end FlatLisp
