import FlatLisp.Eval

/-!
# Laws of Computations

A computation works on a scope, may fail, and keeps records. Computations form a lawful monad:
failures end a sequence wherever it is bracketed, and the records of the parts come in order.

## Main results

* `Eval.run_bind`: what a sequence of two computations gives, in one equation.
* The `LawfulMonad` instance: sequences may be bracketed anew, and doing nothing is neutral.
* `Expr.run_callSymbol_of_procedure`, `Expr.run_defineSymbol_of_ok` and their like: what the two
  forms with a name do, by what the name stands for.
-/

namespace FlatLisp

/-- The failures that reset the scope: a definition of a name that is taken, and a call that
fails. -/
def EvalError.resets : EvalError → Bool
  | alreadyDefined _ => true
  | procedureFailed _ _ => true
  | _ => false

/-- Whether a computation ended in a failure that resets the scope. -/
def Outcome.resets {α : Type} (outcome : Outcome α) : Bool :=
  match outcome.result with
  | .error error => error.resets
  | .ok _ => false

/-- The outcome with these records in front. -/
def Outcome.after {α : Type} (records : List Record) (outcome : Outcome α) : Outcome α :=
  ⟨outcome.result, outcome.env, records ++ outcome.records⟩

namespace Outcome

variable {α : Type} (records : List Record) (outcome : Outcome α)

@[simp] theorem after_result : (outcome.after records).result = outcome.result := rfl

@[simp] theorem after_env : (outcome.after records).env = outcome.env := rfl

@[simp] theorem after_nil : outcome.after [] = outcome := rfl

theorem after_after (earlier : List Record) :
    (outcome.after records).after earlier = outcome.after (earlier ++ records) := by
  simp only [after, List.append_assoc]

end Outcome

namespace Eval

variable {α β γ : Type}

/-- Two computations with the same outcome in every scope are one. -/
theorem ext {first second : Eval α} (h : ∀ env, first.run env = second.run env) :
    first = second :=
  funext h

/-- What a sequence of two computations gives: the failure of the first, or the outcome of the
second in the scope that the first leaves. -/
theorem run_bind (first : Eval α) (next : α → Eval β) (env : Env) :
    (first >>= next).run env =
      match (first.run env).result with
      | .error error => ⟨.error error, (first.run env).env, (first.run env).records⟩
      | .ok a => ((next a).run (first.run env).env).after (first.run env).records := by
  rcases h : first.run env with ⟨error | a, after, records⟩
  · exact run_bind_error next h
  · exact run_bind_ok next h

/-- Inversion of a sequence that gives a value: both parts give one. -/
theorem run_bind_ok_inv {first : Eval α} {next : α → Eval β} {env after : Env} {b : β}
    {records : List Record} (h : (first >>= next).run env = ⟨.ok b, after, records⟩) :
    ∃ a mid front back, first.run env = ⟨.ok a, mid, front⟩ ∧
      (next a).run mid = ⟨.ok b, after, back⟩ ∧ records = front ++ back := by
  rcases hfirst : first.run env with ⟨error | a, mid, front⟩
  · rw [run_bind_error next hfirst] at h
    cases h
  rw [run_bind_ok next hfirst] at h
  rcases hnext : (next a).run mid with ⟨error | b', last, back⟩
  · rw [hnext] at h
    cases h
  rw [hnext] at h
  cases h
  exact ⟨a, mid, front, back, rfl, hnext, rfl⟩

@[simp] theorem run_lookup_bind (name : String) (next : Option Binding → Eval β) (env : Env) :
    (lookup name >>= next).run env = (next (env.lookup name)).run env :=
  rfl

@[simp] theorem run_note_bind (record : Record) (next : Unit → Eval β) (env : Env) :
    (note record >>= next).run env = ((next ()).run env).after [record] :=
  rfl

/-- A call by name gives a value and leaves the scope alone, or resets it. -/
theorem call_run (name : String) (args : List Atom) (env : Env) :
    (call name args).run env =
      match env.call name args with
      | .ok e => ⟨.ok e, env, []⟩
      | .error cause => ⟨.error (.procedureFailed name cause), .initial, [.refusal cause]⟩ :=
  rfl

/-- What a computation does from a later scope on, its continuation does too. -/
theorem run_bind_after {first rest : Eval α} {env mid : Env} {records : List Record}
    (next : α → Eval β) (h : first.run env = (rest.run mid).after records) :
    (first >>= next).run env = ((rest >>= next).run mid).after records := by
  rw [run_bind, run_bind, h]
  rcases rest.run mid with ⟨error | a, after, more⟩
  · rfl
  · exact (Outcome.after_after ..).symm

/-- Mapping the identity over a computation changes nothing. -/
protected theorem id_map (first : Eval α) : id <$> first = first := by
  apply ext
  intro env
  rw [run_map]
  rcases first.run env with ⟨_ | _, _, _⟩ <;> rfl

/-- A computation that only gives a value passes it on. -/
protected theorem pure_bind (a : α) (next : α → Eval β) : (pure a : Eval α) >>= next = next a :=
  rfl

/-- Three computations in sequence may be bracketed either way. -/
protected theorem bind_assoc (first : Eval α) (second : α → Eval β) (third : β → Eval γ) :
    (first >>= second) >>= third = first >>= fun a => second a >>= third := by
  apply ext
  intro env
  rcases h₁ : first.run env with ⟨error | a, after, records⟩
  · rw [run_bind_error _ h₁, run_bind_error third (run_bind_error second h₁)]
  · have h := run_bind_ok second h₁
    rw [run_bind_ok _ h₁]
    rcases h₂ : (second a).run after with ⟨error | b, last, more⟩
    · rw [h₂] at h
      rw [run_bind_error third h, run_bind_error third h₂]
    · rw [h₂] at h
      rw [run_bind_ok third h, run_bind_ok third h₂]
      simp only [List.append_assoc]

/-- To give the image of a value is to map over it. -/
protected theorem bind_pure_comp (f : α → β) (first : Eval α) :
    (first >>= fun a => pure (f a)) = f <$> first := by
  apply ext
  intro env
  rw [run_bind, run_map]
  rcases first.run env with ⟨_ | _, _, records⟩
  · rfl
  · simp only [run_pure, Outcome.after, List.append_nil]
    rfl

instance : LawfulMonad Eval :=
  LawfulMonad.mk' Eval Eval.id_map Eval.pure_bind Eval.bind_assoc (fun _ _ => rfl)
    (fun _ _ => rfl) (fun _ _ => rfl) Eval.bind_pure_comp (fun _ _ => rfl)

end Eval

namespace SpecialForm

@[simp] theorem ofName?_name (form : SpecialForm) : ofName? form.name = some form := by
  cases form <;> decide

/-- Only the name of a special form stands for it. -/
theorem name_of_ofName? {name : String} {form : SpecialForm} (h : ofName? name = some form) :
    form.name = name := by
  have hname := List.find?_some h
  exact eq_of_beq hname

/-- The other names are the names of no special form. -/
theorem ofName?_eq_none_iff {name : String} :
    ofName? name = none ↔ ∀ form : SpecialForm, form.name ≠ name := by
  constructor
  · rintro h form rfl
    rw [ofName?_name] at h
    exact absurd h (by simp)
  · intro h
    rcases hform : ofName? name with _ | form
    · rfl
    · exact absurd (name_of_ofName? hform) (h form)

end SpecialForm

namespace Expr

/-! ### Rows of expressions -/

@[simp] theorem evalSequence_nil (value : Expr) : evalSequence value [] = pure value := by
  rw [evalSequence]

theorem evalSequence_cons (value e : Expr) (rest : List Expr) :
    evalSequence value (e :: rest) = e.eval >>= fun value => evalSequence value rest := by
  rw [evalSequence]

@[simp] theorem evalOperands_nil (procedure : String) (position : Nat) :
    evalOperands procedure position [] = pure [] := by
  rw [evalOperands]

/-- What follows the value of an operand: its atom in front of those of the operands after it. -/
def collect (procedure : String) (position : Nat) (rest : List Expr) (value : Expr) :
    Eval (List Atom) :=
  match value.head with
  | none => Eval.fail (.emptyArgument procedure position)
  | some atom => (atom :: ·) <$> evalOperands procedure (position + 1) rest

theorem collect_of_head {procedure : String} {position : Nat} {rest : List Expr} {value : Expr}
    {atom : Atom} (h : value.head = some atom) :
    collect procedure position rest value =
      (atom :: ·) <$> evalOperands procedure (position + 1) rest := by
  rw [collect, h]

theorem evalOperands_cons (procedure : String) (position : Nat) (e : Expr) (rest : List Expr) :
    evalOperands procedure position (e :: rest) =
      e.eval >>= collect procedure position rest := by
  rw [evalOperands]
  rfl

/-! ### Forms with a name -/

/-- The form that binds a name to the value of an expression. -/
def definition (name : String) (body : Expr) : Expr :=
  ⟨some (.symbol SpecialForm.definition.name), [leaf (.symbol name), body]⟩

/-- Only a lone symbol is a name. -/
theorem eq_leaf_of_name? {target : Expr} {name : String} (h : target.name? = some name) :
    target = leaf (.symbol name) := by
  unfold name? at h
  split at h
  · obtain rfl := Option.some.inj h
    rfl
  · exact absurd h (by simp)

section

variable {name : String} {args : Eval (List Atom)} {body : Eval Expr} {env : Env}

theorem run_callSymbol_of_unbound (h : env.lookup name = none) :
    (callSymbol name args).run env = ⟨.error (.unknownSymbol name), env, []⟩ := by
  rw [callSymbol, Eval.run_lookup_bind, h, Eval.run_fail]

theorem run_callSymbol_of_value {e : Expr} (h : env.lookup name = some (.value e)) :
    (callSymbol name args).run env = ⟨.ok e, env, []⟩ := by
  rw [callSymbol, Eval.run_lookup_bind, h, Eval.run_pure]

/-- A name that stands for a procedure has its operands evaluated, and is then called. -/
theorem run_callSymbol_of_procedure {p : Procedure} (h : env.lookup name = some (.procedure p)) :
    (callSymbol name args).run env =
      (args >>= fun args =>
        Eval.note (.applying name args) >>= fun _ => Eval.call name args).run env := by
  rw [callSymbol, Eval.run_lookup_bind, h]

/-- A name can be defined unless it is bound or reserved. -/
theorem taken_or_free (env : Env) (name : String) :
    (env.contains name = true ∨ SpecialForm.ofName? name ≠ none) ∨
      (env.contains name = false ∧ SpecialForm.ofName? name = none) := by
  rcases hname : SpecialForm.ofName? name with _ | form
  · rcases henv : env.contains name with _ | _
    · exact Or.inr ⟨rfl, rfl⟩
    · exact Or.inl (Or.inl rfl)
  · exact Or.inl (Or.inr (by simp))

/-- A name that is bound or reserved cannot be defined, and the attempt resets the scope. -/
theorem run_defineSymbol_of_taken
    (h : env.contains name = true ∨ SpecialForm.ofName? name ≠ none) :
    (defineSymbol name body).run env =
      ⟨.error (.alreadyDefined name), .initial, [.redefinition name]⟩ := by
  have hcond : ((env.lookup name).isSome || (SpecialForm.ofName? name).isSome) = true := by
    rw [Bool.or_eq_true]
    exact h.imp_right Option.isSome_iff_ne_none.mpr
  rw [defineSymbol, Eval.run_lookup_bind, if_pos hcond, Eval.run_abandon]

theorem run_defineSymbol_of_free (hfree : env.contains name = false)
    (hname : SpecialForm.ofName? name = none) :
    (defineSymbol name body).run env =
      (body >>= fun value => Eval.define name value >>= fun _ => pure value).run env := by
  have hcond : ¬((env.lookup name).isSome || (SpecialForm.ofName? name).isSome) = true := by
    rw [hname, Option.isSome_none, Bool.or_false]
    exact Bool.eq_false_iff.mp hfree
  rw [defineSymbol, Eval.run_lookup_bind, if_neg hcond]

/-- A name that is free and not reserved stays as it is if its value fails. -/
theorem run_defineSymbol_of_error {error : EvalError} {after : Env} {records : List Record}
    (hfree : env.contains name = false) (hname : SpecialForm.ofName? name = none)
    (hbody : body.run env = ⟨.error error, after, records⟩) :
    (defineSymbol name body).run env = ⟨.error error, after, records⟩ := by
  rw [run_defineSymbol_of_free hfree hname, Eval.run_bind_error _ hbody]

/-- A name that is free and not reserved is bound to its value, whatever it stands for when the
value is there. -/
theorem run_defineSymbol_of_ok {value : Expr} {after : Env} {records : List Record}
    (hfree : env.contains name = false) (hname : SpecialForm.ofName? name = none)
    (hbody : body.run env = ⟨.ok value, after, records⟩) :
    (defineSymbol name body).run env =
      ⟨.ok value, after.insert name (.value value), records ++ [.defining name value]⟩ := by
  rw [run_defineSymbol_of_free hfree hname, Eval.run_bind_ok _ hbody]
  rfl

/-- Inversion of a definition that gives a value. -/
theorem run_defineSymbol_ok_inv {value : Expr} {after : Env} {records : List Record}
    (h : (defineSymbol name body).run env = ⟨.ok value, after, records⟩) :
    env.contains name = false ∧ SpecialForm.ofName? name = none ∧
      ∃ mid front, body.run env = ⟨.ok value, mid, front⟩ ∧
        after = mid.insert name (.value value) := by
  rcases taken_or_free env name with htaken | ⟨hfree, hname⟩
  · rw [run_defineSymbol_of_taken htaken] at h
    cases h
  refine ⟨hfree, hname, ?_⟩
  rcases hbody : body.run env with ⟨error | v, mid, front⟩
  · rw [run_defineSymbol_of_error hfree hname hbody] at h
    cases h
  · rw [run_defineSymbol_of_ok hfree hname hbody] at h
    cases h
    exact ⟨mid, front, rfl, rfl⟩

end

end Expr

end FlatLisp
