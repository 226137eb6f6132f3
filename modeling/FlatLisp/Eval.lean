import FlatLisp.Env
import FlatLisp.Record

/-!
# Evaluation

An expression is evaluated in a scope and may add to it at any depth. Three names are special
forms; every other symbol at the head of an expression stands for what the scope binds it to.

A value is the empty expression or a lone atom, as long as no other tree was put into the
scope by hand. Two failures reset the scope before they are reported: the definition of a
name that is bound or reserved, and a call that a built-in refuses. All other failures leave
in place what was defined before them.

## Main definitions

* `Eval`: a computation that works on a scope, may fail, and keeps records.
* `Expr.eval`: the evaluation of an expression.

## Main results

* `Eval.run_bind_ok`, `Eval.run_bind_error`: what a sequence of two computations gives.
-/

namespace FlatLisp

/-- What became of a computation that works on a scope. -/
structure Outcome (α : Type) where
  /-- Its value, or why it has none. -/
  result : Except EvalError α
  /-- The scope that it leaves, whether it fails or not. -/
  env : Env
  /-- What it recorded, in order. -/
  records : List Record

/-- A computation that works on a scope, may fail, and keeps records. -/
def Eval (α : Type) : Type := Env → Outcome α

namespace Eval

/-- Runs a computation in a scope. -/
def run {α : Type} (computation : Eval α) (env : Env) : Outcome α := computation env

instance : Monad Eval where
  pure a := fun env => ⟨.ok a, env, []⟩
  bind first next := fun env =>
    match first env with
    | ⟨.error e, env, records⟩ => ⟨.error e, env, records⟩
    | ⟨.ok a, env, records⟩ =>
      let last := next a env
      ⟨last.result, last.env, records ++ last.records⟩
  map f first := fun env =>
    let outcome := first env
    ⟨outcome.result.map f, outcome.env, outcome.records⟩

/-- Fails, and leaves the scope as it is. -/
def fail {α : Type} (error : EvalError) : Eval α := fun env => ⟨.error error, env, []⟩

/-- Keeps a record. -/
def note (record : Record) : Eval Unit := fun env => ⟨.ok (), env, [record]⟩

/-- What a name stands for. -/
def lookup (name : String) : Eval (Option Binding) := fun env => ⟨.ok (env.lookup name), env, []⟩

/-- Binds a name to a value. -/
def define (name : String) (value : Expr) : Eval Unit := fun env =>
  ⟨.ok (), env.insert name (.value value), [.defining name value]⟩

/-- Resets the scope, says so in a record, and fails. -/
def abandon {α : Type} (record : Record) (error : EvalError) : Eval α := fun _ =>
  ⟨.error error, .initial, [record]⟩

/-- Calls the procedure that a name stands for. If the call fails, the scope is reset. -/
def call (name : String) (args : List Atom) : Eval Expr := fun env =>
  match env.call name args with
  | .ok e => ⟨.ok e, env, []⟩
  | .error cause => ⟨.error (.procedureFailed name cause), .initial, [.refusal cause]⟩

/-! ### What a run gives -/

@[simp] theorem run_pure {α : Type} (a : α) (env : Env) :
    (pure a : Eval α).run env = ⟨.ok a, env, []⟩ := rfl

/-- A failure ends a sequence of computations. -/
theorem run_bind_error {α β : Type} {first : Eval α} {env after : Env} {error : EvalError}
    {records : List Record} (next : α → Eval β)
    (h : first.run env = ⟨.error error, after, records⟩) :
    (first >>= next).run env = ⟨.error error, after, records⟩ := by
  simp only [run] at h ⊢
  simp only [bind, h]

/-- After a value, the next computation works on the scope that is left, and its records come
last. -/
theorem run_bind_ok {α β : Type} {first : Eval α} {env after : Env} {a : α}
    {records : List Record} (next : α → Eval β) (h : first.run env = ⟨.ok a, after, records⟩) :
    (first >>= next).run env =
      ⟨((next a).run after).result, ((next a).run after).env,
        records ++ ((next a).run after).records⟩ := by
  simp only [run] at h ⊢
  simp only [bind, h]

@[simp] theorem run_map {α β : Type} (f : α → β) (first : Eval α) (env : Env) :
    (f <$> first).run env =
      ⟨(first.run env).result.map f, (first.run env).env, (first.run env).records⟩ := rfl

@[simp] theorem run_fail {α : Type} (error : EvalError) (env : Env) :
    (fail error : Eval α).run env = ⟨.error error, env, []⟩ := rfl

@[simp] theorem run_note (record : Record) (env : Env) :
    (note record).run env = ⟨.ok (), env, [record]⟩ := rfl

@[simp] theorem run_lookup (name : String) (env : Env) :
    (lookup name).run env = ⟨.ok (env.lookup name), env, []⟩ := rfl

@[simp] theorem run_define (name : String) (value : Expr) (env : Env) :
    (define name value).run env =
      ⟨.ok (), env.insert name (.value value), [.defining name value]⟩ := rfl

@[simp] theorem run_abandon {α : Type} (record : Record) (error : EvalError) (env : Env) :
    (abandon record error : Eval α).run env = ⟨.error error, .initial, [record]⟩ := rfl

end Eval

/-- The forms that are no procedures. -/
inductive SpecialForm where
  /-- Evaluates expressions one after the other; the last value is its own. -/
  | sequence
  /-- Evaluates a condition, then one of two expressions. -/
  | conditional
  /-- Binds a name to the value of an expression. -/
  | definition
deriving DecidableEq, Repr

namespace SpecialForm

/-- All special forms. -/
def all : List SpecialForm := [sequence, conditional, definition]

/-- The name of a special form. -/
def name : SpecialForm → String
  | sequence => "begin"
  | conditional => "if"
  | definition => "define"

/-- The special form of a name. -/
def ofName? (name : String) : Option SpecialForm :=
  all.find? fun form => form.name == name

end SpecialForm

namespace Expr

/-- The name that an expression is, if it is a lone symbol. -/
def name? : Expr → Option String
  | ⟨some (.symbol name), []⟩ => some name
  | _ => none

/-- The value of a symbol whose operands `args` evaluates. A stored value is given as it is and
the operands are not evaluated; a procedure is called, and it is looked up again for that. -/
def callSymbol (name : String) (args : Eval (List Atom)) : Eval Expr := do
  let binding ← Eval.lookup name
  match binding with
  | none => Eval.fail (.unknownSymbol name)
  | some (.value e) => pure e
  | some (.procedure _) =>
    let args ← args
    Eval.note (.applying name args)
    Eval.call name args

/-- Binds a name to the value that `body` gives. The name must be free before that; it is bound
after it, whatever `body` bound. -/
def defineSymbol (name : String) (body : Eval Expr) : Eval Expr := do
  let binding ← Eval.lookup name
  if binding.isSome || (SpecialForm.ofName? name).isSome then
    Eval.abandon (.redefinition name) (.alreadyDefined name)
  else
    let value ← body
    Eval.define name value
    pure value

mutual

/-- Evaluates an expression. A number or a boolean is its own value, and so is the empty
expression; their children are dropped. -/
def eval : Expr → Eval Expr
  | ⟨head, children⟩ => do
    Eval.note (.evaluating ⟨head, children⟩)
    match head with
    | none => pure empty
    | some (.number x) => pure (leaf (.number x))
    | some (.boolean b) => pure (leaf (.boolean b))
    | some (.symbol name) =>
      match SpecialForm.ofName? name with
      | some .sequence => evalSequence empty children
      | some .conditional => evalConditional children
      | some .definition => evalDefinition children
      | none => callSymbol name (evalOperands name 1 children)
termination_by structural e => e

/-- Evaluates expressions one after the other. The value is that of the last one, or `value`
if there is none. -/
def evalSequence (value : Expr) : List Expr → Eval Expr
  | [] => pure value
  | e :: rest => do
    let value ← eval e
    evalSequence value rest

/-- Evaluates a condition and, by its value, the first or the second of two expressions. -/
def evalConditional : List Expr → Eval Expr
  | [condition, consequent, alternate] => do
    let value ← eval condition
    match value.head with
    | some (.boolean true) => eval consequent
    | some (.boolean false) => eval alternate
    | some other => Eval.fail (.malformed (.conditionType other.type))
    | none => Eval.fail (.malformed .conditionEmpty)
  | operands => Eval.fail (.malformed (.conditionalOperands operands.length))

/-- Binds a name to the value of an expression. -/
def evalDefinition : List Expr → Eval Expr
  | [target, body] =>
    match target.name? with
    | none => Eval.fail (.malformed (.definitionTarget target))
    | some name => defineSymbol name (eval body)
  | operands => Eval.fail (.malformed (.definitionOperands operands.length))

/-- Evaluates operands from left to right and keeps the atom at the root of each value. The
first of them is at `position`. -/
def evalOperands (procedure : String) (position : Nat) : List Expr → Eval (List Atom)
  | [] => pure []
  | e :: rest => do
    let value ← eval e
    match value.head with
    | none => Eval.fail (.emptyArgument procedure position)
    | some atom => (atom :: ·) <$> evalOperands procedure (position + 1) rest

end

end Expr

end FlatLisp
