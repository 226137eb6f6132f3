import FlatLisp.Proofs.SubEvaluation
import Mathlib.Data.List.Basic

/-!
# Where Evaluation Fails

An evaluation that fails does so at one node, for a cause of that node's own, and what it is a part
of fails with it: the failure surfaces unchanged. So the failures of an evaluation are those that
are raised in the evaluations that it reaches, and the scope that it leaves is the one that is left
there.

`Evaluation.Raises` lists the causes. Two of them reset the scope: a definition of a name that is
bound or reserved, and a call that is refused.

## Main definitions

* `Eval.Fails`: a computation fails, and leaves a scope.
* `Evaluation.Raises`: an evaluation fails for a cause of its own.

## Main results

* `Evaluation.raises_or_starts`: a failure is the evaluation's own, or that of one that it starts.
* `Evaluation.fails_iff`: the failures of an evaluation are those that are raised somewhere inside.
-/

namespace FlatLisp

/-- A computation fails from one scope, and leaves another. -/
def Eval.Fails {α : Type} (computation : Eval α) (env : Env) (error : EvalError) (after : Env) :
    Prop :=
  (computation.run env).result = .error error ∧ (computation.run env).env = after

namespace Eval

variable {α β : Type} {env after : Env} {error : EvalError}

theorem not_fails_of_ok {computation : Eval α} {a : α}
    (h : (computation.run env).result = .ok a) : ¬computation.Fails env error after := by
  rintro ⟨herror, -⟩
  rw [h] at herror
  cases herror

/-- Inversion of a failure that is given. -/
theorem Fails.fail_inv {cause : EvalError} (h : (fail cause : Eval α).Fails env error after) :
    error = cause ∧ after = env := by
  obtain ⟨hresult, henv⟩ := h
  cases hresult
  exact ⟨rfl, henv.symm⟩

/-- Inversion of a failure under a map. -/
theorem Fails.map_inv {f : α → β} {first : Eval α} (h : (f <$> first).Fails env error after) :
    first.Fails env error after := by
  obtain ⟨hresult, henv⟩ := h
  rw [run_map] at hresult henv
  refine ⟨?_, henv⟩
  rcases hfirst : (first.run env).result with cause | a
  · rw [hfirst] at hresult
    cases hresult
    rfl
  · rw [hfirst] at hresult
    cases hresult

/-- Inversion of a failure in sequence: the first part fails, or it gives a value and the second
part fails after it. -/
theorem Fails.bind_inv {first : Eval α} {next : α → Eval β}
    (h : (first >>= next).Fails env error after) :
    first.Fails env error after ∨
      ∃ a mid records, first.run env = ⟨.ok a, mid, records⟩ ∧ (next a).Fails mid error after := by
  obtain ⟨hresult, henv⟩ := h
  rcases hfirst : first.run env with ⟨cause | a, mid, records⟩
  · rw [run_bind_error next hfirst] at hresult henv
    cases hresult
    exact Or.inl ⟨by rw [hfirst], by rw [hfirst]; exact henv⟩
  · rw [run_bind_ok next hfirst] at hresult henv
    exact Or.inr ⟨a, mid, records, rfl, hresult, henv⟩

/-- Inversion of a call by name that fails. -/
theorem Fails.call_inv {name : String} {args : List Atom}
    (h : (call name args).Fails env error after) :
    ∃ cause, env.call name args = .error cause ∧ error = .procedureFailed name cause ∧
      after = .initial := by
  obtain ⟨hresult, henv⟩ := h
  rw [call_run] at hresult henv
  rcases hcall : env.call name args with cause | e
  · rw [hcall] at hresult henv
    cases hresult
    exact ⟨cause, rfl, rfl, henv.symm⟩
  · rw [hcall] at hresult
    cases hresult

end Eval

theorem Atom.eq_boolean_of_type {atom : Atom} (h : atom.type = .boolean) :
    ∃ b, atom = .boolean b := by
  cases atom with
  | number x => cases h
  | boolean b => exact ⟨b, rfl⟩
  | symbol name => cases h

namespace Expr

variable {env after : Env} {error : EvalError} {row : List Expr}

/-! ### Malformed forms -/

theorem evalConditional_of_length (h : row.length ≠ 3) :
    evalConditional row = Eval.fail (.malformed (.conditionalOperands row.length)) := by
  rcases row with _ | ⟨_, _ | ⟨_, _ | ⟨_, _ | ⟨_, rest⟩⟩⟩⟩
  · rw [evalConditional]
    simp
  · rw [evalConditional]
    simp
  · rw [evalConditional]
    simp
  · exact absurd rfl h
  · rw [evalConditional]
    simp

theorem evalDefinition_of_length (h : row.length ≠ 2) :
    evalDefinition row = Eval.fail (.malformed (.definitionOperands row.length)) := by
  rcases row with _ | ⟨_, _ | ⟨_, _ | ⟨_, rest⟩⟩⟩
  · rw [evalDefinition]
    simp
  · rw [evalDefinition]
    simp
  · exact absurd rfl h
  · rw [evalDefinition]
    simp

theorem evalDefinition_of_target {target body : Expr} (h : target.name? = none) :
    evalDefinition [target, body] = Eval.fail (.malformed (.definitionTarget target)) := by
  rw [evalDefinition, h]

theorem choose_of_atom {consequent alternate value : Expr} {atom : Atom}
    (hhead : value.head = some atom) (hatom : atom.type ≠ .boolean) :
    choose consequent alternate value = Eval.fail (.malformed (.conditionType atom.type)) := by
  rw [choose, hhead]
  cases atom with
  | number x => rfl
  | boolean b => exact absurd rfl hatom
  | symbol name => rfl

theorem choose_of_empty {consequent alternate value : Expr} (hhead : value.head = none) :
    choose consequent alternate value = Eval.fail (.malformed .conditionEmpty) := by
  rw [choose, hhead]

theorem collect_of_empty {procedure : String} {position : Nat} {value : Expr}
    (hhead : value.head = none) :
    collect procedure position row value = Eval.fail (.emptyArgument procedure position) := by
  rw [collect, hhead]

/-! ### Rows -/

/-- A row in sequence fails at one of its elements. -/
theorem fails_evalSequence {value : Expr} (h : (evalSequence value row).Fails env error after) :
    ∃ front e back mid, row = front ++ e :: back ∧ Passes (fun _ => True) env front mid ∧
      e.eval.Fails mid error after := by
  induction row generalizing value env with
  | nil => exact absurd h (Eval.not_fails_of_ok (by rw [evalSequence_nil]; rfl))
  | cons e rest ih =>
      rw [evalSequence_cons] at h
      rcases h.bind_inv with he | ⟨value', mid, records, hrun, hrest⟩
      · exact ⟨[], e, rest, env, rfl, .nil env, he⟩
      · obtain ⟨front, c, back, last, rfl, hpasses, hc⟩ := ih hrest
        exact ⟨e :: front, c, back, last, rfl, .cons hrun trivial hpasses, hc⟩

/-- A row of operands fails at one of them, or at the first whose value is the empty expression. -/
theorem fails_evalOperands {procedure : String} {position : Nat}
    (h : (evalOperands procedure position row).Fails env error after) :
    ∃ front e back mid, row = front ++ e :: back ∧
      Passes (fun value => value.head ≠ none) env front mid ∧
      (e.eval.Fails mid error after ∨
        ∃ value records, e.eval.run mid = ⟨.ok value, after, records⟩ ∧ value.head = none ∧
          error = .emptyArgument procedure (position + front.length)) := by
  induction row generalizing position env with
  | nil => exact absurd h (Eval.not_fails_of_ok (by rw [evalOperands_nil]; rfl))
  | cons e rest ih =>
      rw [evalOperands_cons] at h
      rcases h.bind_inv with he | ⟨value, mid, records, hrun, hrest⟩
      · exact ⟨[], e, rest, env, rfl, .nil env, Or.inl he⟩
      rcases hhead : value.head with _ | atom
      · rw [collect_of_empty hhead] at hrest
        obtain ⟨rfl, rfl⟩ := hrest.fail_inv
        exact ⟨[], e, rest, env, rfl, .nil env, Or.inr ⟨value, records, hrun, hhead, rfl⟩⟩
      · rw [collect_of_head hhead] at hrest
        obtain ⟨front, c, back, last, rfl, hpasses, hc⟩ := ih hrest.map_inv
        have htest : value.head ≠ none := by simp [hhead]
        refine ⟨e :: front, c, back, last, rfl, .cons hrun htest hpasses, ?_⟩
        rw [List.length_cons, Nat.add_comm front.length, ← Nat.add_assoc]
        exact hc

/-- Operands give as many atoms as there are operands. -/
theorem length_of_evalOperands {procedure : String} {position : Nat} {args : List Atom}
    {records : List Record}
    (h : (evalOperands procedure position row).run env = ⟨.ok args, after, records⟩) :
    args.length = row.length := by
  induction row generalizing position env args records with
  | nil =>
      rw [evalOperands_nil] at h
      cases h
      rfl
  | cons e rest ih =>
      rw [evalOperands_cons] at h
      obtain ⟨value, mid, front, back, -, hcollect, -⟩ := Eval.run_bind_ok_inv h
      rcases hhead : value.head with _ | atom
      · rw [collect_of_empty hhead] at hcollect
        cases hcollect
      · rw [collect_of_head hhead, Eval.run_map] at hcollect
        rcases hrest : (evalOperands procedure (position + 1) rest).run mid with
          ⟨cause | atoms, last, more⟩
        · rw [hrest] at hcollect
          cases hcollect
        · rw [hrest] at hcollect
          cases hcollect
          rw [List.length_cons, List.length_cons, ih hrest]

end Expr

namespace Evaluation

/-- An evaluation fails for a cause of its own, and leaves a scope. -/
inductive Raises : Evaluation → EvalError → Env → Prop
  /-- A name is not bound. -/
  | unbound {name : String} {children : List Expr} {env : Env} :
      SpecialForm.ofName? name = none → env.lookup name = none →
      Raises ⟨⟨some (.symbol name), children⟩, env⟩ (.unknownSymbol name) env
  /-- A procedure refuses its operands. -/
  | refused {name : String} {p : Procedure} {children : List Expr} {args : List Atom}
      {cause : EvalError} {env mid : Env} {records : List Record} :
      SpecialForm.ofName? name = none → env.lookup name = some (.procedure p) →
      (Expr.evalOperands name 1 children).run env = ⟨.ok args, mid, records⟩ →
      mid.call name args = .error cause →
      Raises ⟨⟨some (.symbol name), children⟩, env⟩ (.procedureFailed name cause) .initial
  /-- The value of an operand has no atom. -/
  | missing {name : String} {p : Procedure} {e value : Expr} {front back : List Expr}
      {env mid after : Env} {records : List Record} :
      SpecialForm.ofName? name = none → env.lookup name = some (.procedure p) →
      Passes (fun value => value.head ≠ none) env front mid →
      e.eval.run mid = ⟨.ok value, after, records⟩ → value.head = none →
      Raises ⟨⟨some (.symbol name), front ++ e :: back⟩, env⟩
        (.emptyArgument name (1 + front.length)) after
  /-- A name that is to be defined is bound or reserved. -/
  | taken {name : String} {body : Expr} {env : Env} :
      env.contains name = true ∨ SpecialForm.ofName? name ≠ none →
      Raises ⟨Expr.definition name body, env⟩ (.alreadyDefined name) .initial
  /-- A definition has another number of operands than two. -/
  | definitionOperands {children : List Expr} {env : Env} :
      children.length ≠ 2 →
      Raises ⟨⟨some (.symbol SpecialForm.definition.name), children⟩, env⟩
        (.malformed (.definitionOperands children.length)) env
  /-- What is to be defined is no name. -/
  | definitionTarget {target body : Expr} {env : Env} :
      target.name? = none →
      Raises ⟨⟨some (.symbol SpecialForm.definition.name), [target, body]⟩, env⟩
        (.malformed (.definitionTarget target)) env
  /-- A conditional has another number of operands than three. -/
  | conditionalOperands {children : List Expr} {env : Env} :
      children.length ≠ 3 →
      Raises ⟨⟨some (.symbol SpecialForm.conditional.name), children⟩, env⟩
        (.malformed (.conditionalOperands children.length)) env
  /-- The value of a condition is no boolean. -/
  | conditionType {condition consequent alternate value : Expr} {atom : Atom} {env mid : Env}
      {records : List Record} :
      condition.eval.run env = ⟨.ok value, mid, records⟩ → value.head = some atom →
      atom.type ≠ .boolean →
      Raises ⟨⟨some (.symbol SpecialForm.conditional.name),
        [condition, consequent, alternate]⟩, env⟩ (.malformed (.conditionType atom.type)) mid
  /-- The value of a condition has no atom. -/
  | conditionEmpty {condition consequent alternate value : Expr} {env mid : Env}
      {records : List Record} :
      condition.eval.run env = ⟨.ok value, mid, records⟩ → value.head = none →
      Raises ⟨⟨some (.symbol SpecialForm.conditional.name),
        [condition, consequent, alternate]⟩, env⟩ (.malformed .conditionEmpty) mid

/-- An evaluation fails, and leaves a scope. -/
def Fails (t : Evaluation) (error : EvalError) (after : Env) : Prop :=
  t.expr.eval.Fails t.env error after

section

variable {t u : Evaluation} {error : EvalError} {after : Env}

/-- An evaluation fails with what it raises. -/
theorem Raises.fails (h : Raises t error after) : Fails t error after := by
  have hhead {head : Option Atom} {children : List Expr} {env : Env}
      (h : (Expr.evalHead head children).Fails env error after) :
      Fails ⟨⟨head, children⟩, env⟩ error after := by
    rw [Fails, Eval.Fails, Expr.run_eval]
    exact h
  cases h with
  | unbound hform hlookup =>
      apply hhead
      rw [Expr.evalHead_call hform, Eval.Fails, Expr.run_callSymbol_of_unbound hlookup]
      exact ⟨rfl, rfl⟩
  | @refused name p children args cause env mid records hform hlookup hargs hcall =>
      apply hhead
      rw [Expr.evalHead_call hform, Eval.Fails, Expr.run_callSymbol_of_procedure hlookup,
        Eval.run_bind_ok _ hargs, Eval.run_note_bind, Eval.call_run, hcall]
      exact ⟨rfl, rfl⟩
  | @missing name p e value front back env mid after records hform hlookup hfront he hvalue =>
      obtain ⟨atoms, more, hrun⟩ := hfront.run_evalOperands name 1 (e :: back)
      apply hhead
      rw [Expr.evalHead_call hform, Eval.Fails, Expr.run_callSymbol_of_procedure hlookup,
        Eval.run_bind_after _ hrun, Expr.evalOperands_cons, map_bind, bind_assoc,
        Eval.run_bind_ok _ he, Expr.collect_of_empty hvalue]
      exact ⟨rfl, rfl⟩
  | taken htaken =>
      apply hhead
      rw [Expr.evalHead_definition (SpecialForm.ofName?_name _), Expr.evalDefinition_leaf,
        Eval.Fails, Expr.run_defineSymbol_of_taken htaken]
      exact ⟨rfl, rfl⟩
  | definitionOperands hlength =>
      apply hhead
      rw [Expr.evalHead_definition (SpecialForm.ofName?_name _),
        Expr.evalDefinition_of_length hlength]
      exact ⟨rfl, rfl⟩
  | definitionTarget htarget =>
      apply hhead
      rw [Expr.evalHead_definition (SpecialForm.ofName?_name _),
        Expr.evalDefinition_of_target htarget]
      exact ⟨rfl, rfl⟩
  | conditionalOperands hlength =>
      apply hhead
      rw [Expr.evalHead_conditional (SpecialForm.ofName?_name _),
        Expr.evalConditional_of_length hlength]
      exact ⟨rfl, rfl⟩
  | conditionType hcondition hvalue hatom =>
      apply hhead
      rw [Expr.evalHead_conditional (SpecialForm.ofName?_name _), Expr.evalConditional_three,
        Eval.Fails, Eval.run_bind_ok _ hcondition, Expr.choose_of_atom hvalue hatom]
      exact ⟨rfl, rfl⟩
  | conditionEmpty hcondition hvalue =>
      apply hhead
      rw [Expr.evalHead_conditional (SpecialForm.ofName?_name _), Expr.evalConditional_three,
        Eval.Fails, Eval.run_bind_ok _ hcondition, Expr.choose_of_empty hvalue]
      exact ⟨rfl, rfl⟩

/-- **A failure is the evaluation's own**, or that of an evaluation that it starts. -/
theorem raises_or_starts (h : Fails t error after) :
    Raises t error after ∨ ∃ u, Starts t u ∧ Fails u error after := by
  obtain ⟨⟨head, children⟩, env⟩ := t
  rw [Fails, Eval.Fails, Expr.run_eval] at h
  change (Expr.evalHead head children).Fails env error after at h
  rcases head with _ | x | b | name
  · exact absurd h (Eval.not_fails_of_ok rfl)
  · exact absurd h (Eval.not_fails_of_ok rfl)
  · exact absurd h (Eval.not_fails_of_ok rfl)
  rcases hform : SpecialForm.ofName? name with _ | form
  · rw [Expr.evalHead_call hform, Eval.Fails] at h
    rcases hlookup : env.lookup name with _ | e | p
    · rw [Expr.run_callSymbol_of_unbound hlookup] at h
      obtain ⟨hresult, rfl⟩ := h
      cases hresult
      exact Or.inl (.unbound hform hlookup)
    · rw [Expr.run_callSymbol_of_value hlookup] at h
      cases h.1
    · rw [Expr.run_callSymbol_of_procedure hlookup] at h
      rcases Eval.Fails.bind_inv h with hargs | ⟨args, mid, records, hargs, hcall⟩
      · obtain ⟨front, e, back, mid, rfl, hfront, he | ⟨value, records, he, hvalue, rfl⟩⟩ :=
          Expr.fails_evalOperands hargs
        · exact Or.inr ⟨⟨e, mid⟩, .operand hform hlookup hfront, he⟩
        · exact Or.inl (.missing hform hlookup hfront he hvalue)
      · rw [Eval.Fails, Eval.run_note_bind] at hcall
        obtain ⟨cause, hcause, rfl, rfl⟩ := Eval.Fails.call_inv hcall
        exact Or.inl (.refused hform hlookup hargs hcause)
  obtain rfl := SpecialForm.name_of_ofName? hform
  cases form with
  | sequence =>
      rw [Expr.evalHead_sequence hform] at h
      obtain ⟨front, e, back, mid, rfl, hfront, he⟩ := Expr.fails_evalSequence h
      exact Or.inr ⟨⟨e, mid⟩, .element hfront, he⟩
  | conditional =>
      rw [Expr.evalHead_conditional hform] at h
      by_cases hlength : children.length = 3
      · obtain ⟨condition, consequent, alternate, rfl⟩ := List.length_eq_three.mp hlength
        rw [Expr.evalConditional_three] at h
        rcases h.bind_inv with hcondition | ⟨value, mid, records, hcondition, hchoice⟩
        · exact Or.inr ⟨⟨condition, env⟩, .condition, hcondition⟩
        rcases hvalue : value.head with _ | atom
        · rw [Expr.choose_of_empty hvalue] at hchoice
          obtain ⟨rfl, rfl⟩ := hchoice.fail_inv
          exact Or.inl (.conditionEmpty hcondition hvalue)
        by_cases hatom : atom.type = .boolean
        · obtain ⟨b, rfl⟩ := Atom.eq_boolean_of_type hatom
          rw [Expr.choose_of_boolean hvalue] at hchoice
          exact Or.inr ⟨⟨_, mid⟩, .branch hcondition hvalue, hchoice⟩
        · rw [Expr.choose_of_atom hvalue hatom] at hchoice
          obtain ⟨rfl, rfl⟩ := hchoice.fail_inv
          exact Or.inl (.conditionType hcondition hvalue hatom)
      · rw [Expr.evalConditional_of_length hlength] at h
        obtain ⟨rfl, rfl⟩ := h.fail_inv
        exact Or.inl (.conditionalOperands hlength)
  | definition =>
      rw [Expr.evalHead_definition hform] at h
      by_cases hlength : children.length = 2
      · obtain ⟨target, body, rfl⟩ := List.length_eq_two.mp hlength
        rcases hname : target.name? with _ | name
        · rw [Expr.evalDefinition_of_target hname] at h
          obtain ⟨rfl, rfl⟩ := h.fail_inv
          exact Or.inl (.definitionTarget hname)
        obtain rfl := Expr.eq_leaf_of_name? hname
        rw [Expr.evalDefinition_leaf, Eval.Fails] at h
        rcases Expr.taken_or_free env name with htaken | ⟨hfree, hopen⟩
        · rw [Expr.run_defineSymbol_of_taken htaken] at h
          obtain ⟨hresult, rfl⟩ := h
          cases hresult
          exact Or.inl (.taken htaken)
        · rw [Expr.run_defineSymbol_of_free hfree hopen] at h
          rcases Eval.Fails.bind_inv h with hbody | ⟨value, mid, records, -, hdefine⟩
          · exact Or.inr ⟨⟨body, env⟩, .body hfree hopen, hbody⟩
          · exact absurd hdefine (Eval.not_fails_of_ok rfl)
      · rw [Expr.evalDefinition_of_length hlength] at h
        obtain ⟨rfl, rfl⟩ := h.fail_inv
        exact Or.inl (.definitionOperands hlength)

/-- **The failures of an evaluation** are those that are raised in the evaluations that it
reaches, with the scope that is left there. -/
theorem fails_iff : Fails t error after ↔ ∃ u, Reaches t u ∧ Raises u error after := by
  constructor
  · intro h
    obtain ⟨e, env⟩ := t
    induction e using Expr.induction generalizing env with
    | node head children ih =>
        rcases raises_or_starts h with hraises | ⟨u, hstart, hu⟩
        · exact ⟨_, .refl, hraises⟩
        · obtain ⟨v, hreach, hraises⟩ := ih u.expr hstart.mem u.env hu
          exact ⟨v, .head hstart hreach, hraises⟩
  · rintro ⟨u, hreach, hraises⟩
    obtain ⟨hresult, rfl⟩ := hraises.fails
    exact hreach.outcome_of_error hresult

end

end Evaluation

end FlatLisp
