import FlatLisp.Proofs.Failures
import FlatLisp.Proofs.Mentioned
import FlatLisp.Proofs.Refusals

/-!
# Who Is to Blame for a Failure

A scope that came about by additions of values, resets and evaluations has procedures in it that
are built-ins, each under its own name: values can be put over them, but no procedure is ever added.
A call finds its procedure in the scope in which its operands begin, and looks it up again when
they are done; it is still there, since an evaluation that does not fail takes no binding away.

So when a call fails in an evaluation, it is a built-in that has refused the atoms of its operands,
and the failure names the built-in and carries the refusal and nothing else. No refusal comes bare,
and no call meets a name that is free or stands for a value.

## Main definitions

* `Env.reached`: the scope after any changes.
* `Env.Genuine`: the procedures of a scope are built-ins under their own names.

## Main results

* `Env.genuine_reached`: every scope that is reached is genuine.
* `Evaluation.Raises.refusal`: what a failed call tells.
* `Expr.failure_of_reached`: what the failure of an evaluation tells.
-/

namespace FlatLisp

namespace Env

/-! ### Scopes that are reached -/

/-- What can be done to a scope. -/
inductive Change where
  /-- A name is bound to a value, whatever it was bound to. -/
  | add (name : String) (value : Expr)
  /-- All that was added is lost, whether the scope is reset or cleared. -/
  | reset
  /-- An expression is evaluated. -/
  | evaluate (e : Expr)

/-- The scope after a change. -/
def change (env : Env) : Change → Env
  | .add name value => env.insert name (.value value)
  | .reset => initial
  | .evaluate e => (e.eval.run env).env

/-- The scope after some changes, from the beginning. -/
def reached (changes : List Change) : Env := changes.foldl change initial

/-- The procedures of a scope are built-ins, each under its own name. -/
def Genuine (env : Env) : Prop :=
  ∀ name p, env.lookup name = some (.procedure p) → ∃ b : Builtin, b.name = name ∧ p = ⟨b.name, b⟩

theorem genuine_initial : initial.Genuine := by
  intro name p h
  rcases initial_lookup_inv h with ⟨-, hbinding⟩ | ⟨b, hname, hbinding⟩
  · cases hbinding
  · cases hbinding
    exact ⟨b, hname, rfl⟩

/-- A value does not add a procedure. -/
theorem Genuine.insert {env : Env} (h : env.Genuine) (name : String) (value : Expr) :
    (env.insert name (.value value)).Genuine := by
  intro other p hother
  rw [lookup_insert] at hother
  split at hother
  · cases hother
  · exact h other p hother

end Env

/-- A computation keeps scopes genuine. -/
def Eval.KeepsGenuine {α : Type} (computation : Eval α) : Prop :=
  ∀ env, env.Genuine → (computation.run env).env.Genuine

namespace Eval.KeepsGenuine

variable {α β : Type}

theorem bind {first : Eval α} {next : α → Eval β} (hfirst : first.KeepsGenuine)
    (hnext : ∀ a, (next a).KeepsGenuine) : (first >>= next).KeepsGenuine := by
  intro env henv
  have hmid := hfirst env henv
  rw [run_bind]
  split
  · exact hmid
  · exact hnext _ _ hmid

theorem callSymbol (name : String) {args : Eval (List Atom)} (hargs : args.KeepsGenuine) :
    (Expr.callSymbol name args).KeepsGenuine := by
  intro env henv
  rcases hlookup : env.lookup name with _ | e | p
  · rw [Expr.run_callSymbol_of_unbound hlookup]
    exact henv
  · rw [Expr.run_callSymbol_of_value hlookup]
    exact henv
  · rw [Expr.run_callSymbol_of_procedure hlookup]
    refine hargs.bind (fun args mid hmid => ?_) env henv
    rw [run_note_bind, call_run]
    split
    · exact hmid
    · exact Env.genuine_initial

theorem defineSymbol (name : String) {body : Eval Expr} (hbody : body.KeepsGenuine) :
    (Expr.defineSymbol name body).KeepsGenuine := by
  intro env henv
  rcases Expr.taken_or_free env name with htaken | ⟨hfree, hopen⟩
  · rw [Expr.run_defineSymbol_of_taken htaken]
    exact Env.genuine_initial
  · rw [Expr.run_defineSymbol_of_free hfree hopen]
    refine hbody.bind (fun value mid hmid => ?_) env henv
    exact Env.Genuine.insert hmid name value

end Eval.KeepsGenuine

namespace Expr

/-- The parts of an evaluation keep scopes genuine. -/
theorem keeps_genuine (e : Expr) : e.Keeps fun _ computation => computation.KeepsGenuine where
  pure _ _ h := h
  fail _ _ _ h := h
  note _ _ h := h
  bind := Eval.KeepsGenuine.bind
  call name _ _ _ hargs := hargs.callSymbol name
  define name _ _ hbody := hbody.defineSymbol name

/-- An evaluation keeps scopes genuine. -/
theorem eval_keepsGenuine (e : Expr) : e.eval.KeepsGenuine :=
  e.keeps_genuine.eval

end Expr

namespace Env

/-- **Every scope that is reached is genuine.** -/
theorem genuine_reached (changes : List Change) : (reached changes).Genuine := by
  refine List.foldlRecOn changes change genuine_initial fun env henv c _ => ?_
  cases c with
  | add name value => exact henv.insert name value
  | reset => exact genuine_initial
  | evaluate e => exact e.eval_keepsGenuine env henv

/-- A call in a genuine scope that finds a procedure fails only when the built-in refuses. -/
theorem Genuine.call_inv {env : Env} (h : env.Genuine) {name : String} {p : Procedure}
    {args : List Atom} {cause : EvalError} (hlookup : env.lookup name = some (.procedure p))
    (hcall : env.call name args = .error cause) :
    ∃ (b : Builtin) (refusal : Refusal), b.name = name ∧ cause = .refused refusal ∧
      b.apply args = .error refusal := by
  obtain ⟨b, hname, rfl⟩ := h name p hlookup
  rw [call, hlookup] at hcall
  simp only [Procedure.call] at hcall
  rcases happly : b.apply args with refusal | atom
  · rw [happly] at hcall
    cases hcall
    exact ⟨b, refusal, hname, rfl, happly⟩
  · rw [happly] at hcall
    cases hcall

end Env

/-! ### Evaluations inside an evaluation -/

theorem Passes.genuine {test : Expr → Prop} {env after : Env} {row : List Expr}
    (h : Passes test env row after) (henv : env.Genuine) : after.Genuine := by
  induction h with
  | nil env => exact henv
  | @cons env mid after e value rest records hrun _ _ ih =>
      have hmid := e.eval_keepsGenuine env henv
      rw [hrun] at hmid
      exact ih hmid

namespace Evaluation

variable {t u : Evaluation}

/-- An evaluation that is started finds a genuine scope if the whole does. -/
theorem Starts.genuine (h : Starts t u) (henv : t.env.Genuine) : u.env.Genuine := by
  cases h with
  | element hfront => exact hfront.genuine henv
  | condition => exact henv
  | @branch condition _ _ _ _ env mid _ hrun _ =>
      have hmid := condition.eval_keepsGenuine env henv
      rw [hrun] at hmid
      exact hmid
  | body _ _ => exact henv
  | operand _ _ hfront => exact hfront.genuine henv

theorem Reaches.genuine (h : Reaches t u) (henv : t.env.Genuine) : u.env.Genuine := by
  induction h with
  | refl => exact henv
  | tail _ hstart ih => exact hstart.genuine ih

/-- **What a failed call tells.** It names a built-in that heads the node, and its cause is that
this built-in refuses the atoms of the operands, one for each of them. -/
theorem Raises.refusal {name : String} {cause : EvalError} {after : Env}
    (h : Raises u (.procedureFailed name cause) after) (henv : u.env.Genuine) :
    ∃ (b : Builtin) (refusal : Refusal) (children : List Expr) (args : List Atom),
      b.name = name ∧ cause = .refused refusal ∧ u.expr = ⟨some (.symbol name), children⟩ ∧
      args.length = children.length ∧ b.apply args = .error refusal := by
  cases h with
  | @refused _ p children args _ env mid records hform hlookup hargs hcall =>
      have hgenuine := Expr.empty.keeps_genuine.evalOperands
        (fun c (_ : c ∈ children) => c.eval_keepsGenuine) name 1 env henv
      have hgrows := Expr.evalOperands_grows name 1 children env
      rw [hargs] at hgenuine hgrows
      -- The procedure is looked up again after the operands, which have taken no binding away.
      have hmid := hgrows.kept rfl name (.procedure p) hlookup
      obtain ⟨b, refusal, hname, rfl, happly⟩ := hgenuine.call_inv hmid hcall
      exact ⟨b, refusal, children, args, hname, rfl, rfl, Expr.length_of_evalOperands hargs, happly⟩

end Evaluation

/-- A refusal is the built-in's own: for the number of the operands, or at the place of one. -/
theorem Builtin.refusal_of_apply {b : Builtin} {args : List Atom} {refusal : Refusal}
    (h : b.apply args = .error refusal) :
    refusal = .count b args.length ∨
      ∃ position found, refusal = .type b position found ∧ 1 ≤ position ∧
        position ≤ args.length := by
  rcases apply_eq_error_iff.mp h with ⟨-, rfl⟩ | ⟨-, front, arg, back, rfl, -, -, rfl⟩
  · exact Or.inl rfl
  · refine Or.inr ⟨_, _, rfl, by omega, ?_⟩
    rw [List.length_append, List.length_cons]
    omega

namespace Expr

/-- **What the failure of an evaluation tells**, in every scope that is reached. No refusal comes
bare, and no call finds a value for its procedure. A failed call names a built-in that heads a
node, and its cause is this built-in's own refusal of as many atoms as the node has operands: of
their number, or of the sort of one of them. A name that is unknown heads a node, and is still
free in the scope that is left. -/
theorem failure_of_reached (changes : List Env.Change) (e : Expr) :
    let outcome := e.eval.run (Env.reached changes)
    (∀ refusal, outcome.result ≠ .error (.refused refusal)) ∧
    (∀ name, outcome.result ≠ .error (.malformed (.notProcedure name))) ∧
    (∀ name cause, outcome.result = .error (.procedureFailed name cause) →
      ∃ (b : Builtin) (refusal : Refusal) (children : List Expr) (args : List Atom),
        b.name = name ∧ Within ⟨some (.symbol name), children⟩ e ∧ cause = .refused refusal ∧
        args.length = children.length ∧ b.apply args = .error refusal ∧
        (refusal = .count b args.length ∨
          ∃ position found, refusal = .type b position found ∧ 1 ≤ position ∧
            position ≤ children.length)) ∧
    ∀ name, outcome.result = .error (.unknownSymbol name) →
      e.Mentions name ∧ outcome.env.contains name = false := by
  intro outcome
  let t : Evaluation := ⟨e, Env.reached changes⟩
  have hraised {error : EvalError} (h : outcome.result = .error error) :
      ∃ u, Evaluation.Reaches t u ∧ Evaluation.Raises u error outcome.env :=
    Evaluation.fails_iff.mp ⟨h, rfl⟩
  refine ⟨fun refusal h => ?_, fun name h => ?_, fun name cause h => ?_, fun name h => ?_⟩
  · obtain ⟨u, -, hraises⟩ := hraised h
    cases hraises
  · obtain ⟨u, -, hraises⟩ := hraised h
    cases hraises
  · obtain ⟨u, hreach, hraises⟩ := hraised h
    obtain ⟨b, refusal, children, args, hname, hcause, hexpr, hlength, happly⟩ :=
      hraises.refusal (hreach.genuine (Env.genuine_reached changes))
    have hwithin := hreach.within
    rw [hexpr] at hwithin
    have hown := Builtin.refusal_of_apply happly
    rw [hlength] at hown
    exact ⟨b, refusal, children, args, hname, hwithin, hcause, hlength, happly, hlength ▸ hown⟩
  · obtain ⟨u, hreach, hraises⟩ := hraised h
    have hwithin := hreach.within
    cases hraises with
    | unbound hform hlookup => exact ⟨⟨_, hwithin⟩, Env.contains_eq_false_iff.mpr hlookup⟩

end Expr

end FlatLisp
