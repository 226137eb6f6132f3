import FlatLisp.Proofs.Computation

/-!
# Subexpressions

An expression is a tree whose nodes have any number of children, so that a fact about all
expressions is proved node by node, from the same fact about the children.

The evaluation of an expression is put together from few parts: giving a value, failing without
a reset, keeping a record, one computation after another, and the two forms with a name. A
property of computations that holds of all these holds of every evaluation. `Expr.Upholds` is
that list of obligations, where a computation may go on with what is known of the value before
it, and `Expr.Upholds.eval` is the induction over the evaluator, done once. `Expr.Keeps` is the
shorter list for a property that does not depend on values.

## Main results

* `Expr.induction`: induction over the nodes of an expression.
* `Expr.Within`: one expression stands somewhere inside another.
* `Expr.Upholds.eval`, `Expr.Keeps.eval`: what the parts of an evaluation uphold, or keep, holds
  of the evaluation.
-/

namespace FlatLisp

namespace Expr

/-- Induction over the nodes of an expression: what passes from the children to their parent
holds of every expression. -/
@[elab_as_elim]
theorem induction {motive : Expr → Prop}
    (node : ∀ head children, (∀ c ∈ children, motive c) → motive ⟨head, children⟩) (e : Expr) :
    motive e := by
  obtain ⟨head, children⟩ := e
  exact node head children fun c hc => induction node c
termination_by sizeOf e
decreasing_by
  have hsize := List.sizeOf_lt_of_mem hc
  simp only [mk.sizeOf_spec]
  omega

/-- One expression stands somewhere inside another, or is the other itself. -/
inductive Within : Expr → Expr → Prop
  | refl (e : Expr) : Within e e
  | child {e c : Expr} {head : Option Atom} {children : List Expr} :
      c ∈ children → Within e c → Within e ⟨head, children⟩

theorem Within.of_mem_children {c e : Expr} (hc : c ∈ e.children) : Within c e := by
  obtain ⟨head, children⟩ := e
  exact Within.child hc (Within.refl c)

/-- What stands inside a part stands inside the whole. -/
theorem Within.trans {a b c : Expr} (hab : Within a b) (hbc : Within b c) : Within a c := by
  induction hbc with
  | refl => exact hab
  | child hmem _ ih => exact Within.child hmem ih

/-- A child of a node stands inside whatever the node stands in. -/
theorem Within.of_mem {c e : Expr} {head : Option Atom} {children : List Expr}
    (hc : c ∈ children) (h : Within ⟨head, children⟩ e) : Within c e :=
  Within.trans (Within.of_mem_children hc) h

/-! ### Evaluation by the head -/

/-- What the evaluation of a node does after its record. -/
def evalHead : Option Atom → List Expr → Eval Expr
  | none, _ => pure empty
  | some (.number x), _ => pure (leaf (.number x))
  | some (.boolean b), _ => pure (leaf (.boolean b))
  | some (.symbol name), children =>
    match SpecialForm.ofName? name with
    | some .sequence => evalSequence empty children
    | some .conditional => evalConditional children
    | some .definition => evalDefinition children
    | none => callSymbol name (evalOperands name 1 children)

theorem eval_node (head : Option Atom) (children : List Expr) :
    eval ⟨head, children⟩ =
      Eval.note (.evaluating ⟨head, children⟩) >>= fun _ => evalHead head children := by
  rw [eval.eq_def]
  rcases head with _ | x | b | name
  · rfl
  · rfl
  · rfl
  · unfold evalHead
    rcases SpecialForm.ofName? name with _ | _ | _ | _ <;> rfl

/-- The outcome at a node is that of its head, with the record of the node in front. -/
theorem run_eval (head : Option Atom) (children : List Expr) (env : Env) :
    (eval ⟨head, children⟩).run env =
      ((evalHead head children).run env).after [.evaluating ⟨head, children⟩] := by
  rw [eval_node, Eval.run_note_bind]

section

variable {name : String} {children : List Expr}

theorem evalHead_sequence (h : SpecialForm.ofName? name = some .sequence) :
    evalHead (some (.symbol name)) children = evalSequence empty children := by
  simp only [evalHead, h]

theorem evalHead_conditional (h : SpecialForm.ofName? name = some .conditional) :
    evalHead (some (.symbol name)) children = evalConditional children := by
  simp only [evalHead, h]

theorem evalHead_definition (h : SpecialForm.ofName? name = some .definition) :
    evalHead (some (.symbol name)) children = evalDefinition children := by
  simp only [evalHead, h]

theorem evalHead_call (h : SpecialForm.ofName? name = none) :
    evalHead (some (.symbol name)) children =
      callSymbol name (evalOperands name 1 children) := by
  simp only [evalHead, h]

end

/-- What a condition decides: which of two expressions is evaluated. -/
def choose (consequent alternate value : Expr) : Eval Expr :=
  match value.head with
  | some (.boolean true) => consequent.eval
  | some (.boolean false) => alternate.eval
  | some other => Eval.fail (.malformed (.conditionType other.type))
  | none => Eval.fail (.malformed .conditionEmpty)

theorem choose_of_boolean {consequent alternate value : Expr} {b : Bool}
    (h : value.head = some (.boolean b)) :
    choose consequent alternate value = (if b then consequent else alternate).eval := by
  unfold choose
  rw [h]
  cases b <;> rfl

/-- A conditional with three operands evaluates its condition and what that decides. -/
theorem evalConditional_three (condition consequent alternate : Expr) :
    evalConditional [condition, consequent, alternate] =
      condition.eval >>= choose consequent alternate := by
  rw [evalConditional]
  rfl

/-- A conditional has three operands or is malformed. -/
theorem evalConditional_cases (children : List Expr) :
    (∃ condition consequent alternate, children = [condition, consequent, alternate]) ∨
      ∃ cause, evalConditional children = Eval.fail (.malformed cause) := by
  rcases children with _ | ⟨condition, _ | ⟨consequent, _ | ⟨alternate, _ | ⟨extra, rest⟩⟩⟩⟩
  · exact Or.inr ⟨.conditionalOperands 0, by rw [evalConditional] <;> simp⟩
  · exact Or.inr ⟨.conditionalOperands 1, by rw [evalConditional] <;> simp⟩
  · exact Or.inr ⟨.conditionalOperands 2, by rw [evalConditional] <;> simp⟩
  · exact Or.inl ⟨condition, consequent, alternate, rfl⟩
  · refine Or.inr ⟨.conditionalOperands (rest.length + 4), ?_⟩
    rw [evalConditional] <;> simp

/-- A definition of a lone symbol binds it. -/
theorem evalDefinition_leaf (name : String) (body : Expr) :
    evalDefinition [leaf (.symbol name), body] = defineSymbol name body.eval := by
  rw [evalDefinition]
  rfl

/-- A definition has a lone symbol for its target or is malformed. -/
theorem evalDefinition_cases (children : List Expr) :
    (∃ name body, children = [leaf (.symbol name), body]) ∨
      ∃ cause, evalDefinition children = Eval.fail (.malformed cause) := by
  rcases children with _ | ⟨target, _ | ⟨body, _ | ⟨extra, rest⟩⟩⟩
  · exact Or.inr ⟨.definitionOperands 0, by rw [evalDefinition] <;> simp⟩
  · exact Or.inr ⟨.definitionOperands 1, by rw [evalDefinition] <;> simp⟩
  · rcases hname : target.name? with _ | name
    · exact Or.inr ⟨.definitionTarget target, by rw [evalDefinition, hname]⟩
    · exact Or.inl ⟨name, body, by rw [eq_leaf_of_name? hname]⟩
  · refine Or.inr ⟨.definitionOperands (target :: body :: extra :: rest).length, ?_⟩
    rw [evalDefinition]
    simp

/-! ### What every evaluation upholds -/

/-- Two properties of computations, `P` of those that give a value and `Q` of those that give the
atoms of operands, are upheld by an expression if they hold of the parts of which its evaluation
is put together, wherever they stand in the expression. What is known of values, `value`, may be
used where a computation goes on with one. -/
structure Upholds (e : Expr) (value : Expr → Prop) (P : Eval Expr → Prop)
    (Q : Eval (List Atom) → Prop) : Prop where
  /-- The empty expression is a value. -/
  empty : value empty
  /-- So are numbers. -/
  number : ∀ x, value (leaf (.number x))
  /-- So are booleans. -/
  boolean : ∀ b, value (leaf (.boolean b))
  /-- Giving a value. -/
  pure : ∀ {v : Expr}, value v → P (pure v)
  /-- Failing without a reset. -/
  fail : ∀ error : EvalError, error.resets = false → P (Eval.fail error)
  /-- Keeping the record of a node in front. -/
  note : ∀ (e : Expr) {next : Eval Expr}, P next →
    P (Eval.note (.evaluating e) >>= fun _ => next)
  /-- Going on with a value. -/
  bind : ∀ {first : Eval Expr} {next : Expr → Eval Expr}, P first →
    (∀ v, value v → P (next v)) → P (first >>= next)
  /-- No operands. -/
  nil : Q (Pure.pure [])
  /-- The atom of a value in front of those of other operands. -/
  cons : ∀ {v : Expr} {atom : Atom} {rest : Eval (List Atom)}, value v → v.head = some atom →
    Q rest → Q ((atom :: ·) <$> rest)
  /-- An operand without an atom. -/
  missing : ∀ error : EvalError, error.resets = false → Q (Eval.fail error)
  /-- An operand with others after it. -/
  operand : ∀ {first : Eval Expr} {next : Expr → Eval (List Atom)}, P first →
    (∀ v, value v → Q (next v)) → Q (first >>= next)
  /-- A name with operands. -/
  call : ∀ name children, SpecialForm.ofName? name = none →
    Within ⟨some (.symbol name), children⟩ e → Q (evalOperands name 1 children) →
    P (callSymbol name (evalOperands name 1 children))
  /-- The definition of a name. -/
  define : ∀ name body, Within (definition name body) e → P body.eval →
    P (defineSymbol name body.eval)

namespace Upholds

variable {e : Expr} {value : Expr → Prop} {P : Eval Expr → Prop} {Q : Eval (List Atom) → Prop}
  {row : List Expr}

/-- A row of expressions in sequence upholds what each of them does, from a value on. -/
theorem evalSequence (h : e.Upholds value P Q) (hrow : ∀ c ∈ row, P c.eval) {start : Expr}
    (hstart : value start) : P (evalSequence start row) := by
  induction row generalizing start with
  | nil =>
      rw [evalSequence_nil]
      exact h.pure hstart
  | cons c rest ih =>
      rw [evalSequence_cons]
      refine h.bind (hrow c (List.mem_cons_self ..)) fun next hnext => ?_
      exact ih (fun d hd => hrow d (List.mem_cons_of_mem c hd)) hnext

/-- What follows the value of an operand upholds what the operands after it do. -/
theorem collect (h : e.Upholds value P Q) {procedure : String} {position : Nat}
    (hrest : Q (Expr.evalOperands procedure (position + 1) row)) {v : Expr} (hv : value v) :
    Q (collect procedure position row v) := by
  rcases hhead : v.head with _ | atom
  · rw [Expr.collect, hhead]
    exact h.missing _ rfl
  · rw [collect_of_head hhead]
    exact h.cons hv hhead hrest

/-- A row of operands upholds what each of them does. -/
theorem evalOperands (h : e.Upholds value P Q) (hrow : ∀ c ∈ row, P c.eval) (procedure : String)
    (position : Nat) : Q (evalOperands procedure position row) := by
  induction row generalizing position with
  | nil =>
      rw [evalOperands_nil]
      exact h.nil
  | cons c rest ih =>
      have hrest := ih (fun d hd => hrow d (List.mem_cons_of_mem c hd)) (position + 1)
      rw [evalOperands_cons]
      exact h.operand (hrow c (List.mem_cons_self ..)) fun v hv => h.collect hrest hv

/-- What a condition decides upholds what both alternatives do. -/
theorem choose (h : e.Upholds value P Q) {consequent alternate : Expr} (hc : P consequent.eval)
    (ha : P alternate.eval) (v : Expr) : P (choose consequent alternate v) := by
  unfold Expr.choose
  split
  · exact hc
  · exact ha
  · exact h.fail _ rfl
  · exact h.fail _ rfl

/-- The evaluation of a node upholds what the evaluations of its children do. -/
theorem evalHead (h : e.Upholds value P Q) {head : Option Atom} {children : List Expr}
    (hwithin : Within ⟨head, children⟩ e) (hrow : ∀ c ∈ children, P c.eval) :
    P (evalHead head children) := by
  rcases head with _ | x | b | name
  · exact h.pure h.empty
  · exact h.pure (h.number x)
  · exact h.pure (h.boolean b)
  rcases hform : SpecialForm.ofName? name with _ | _ | _ | _
  · rw [evalHead_call hform]
    exact h.call name children hform hwithin (h.evalOperands hrow name 1)
  · rw [evalHead_sequence hform]
    exact h.evalSequence hrow h.empty
  · rw [evalHead_conditional hform]
    obtain ⟨condition, consequent, alternate, rfl⟩ | ⟨cause, heval⟩ :=
      evalConditional_cases children
    · rw [evalConditional_three]
      exact h.bind (hrow condition (by simp)) fun v _ =>
        h.choose (hrow consequent (by simp)) (hrow alternate (by simp)) v
    · rw [heval]
      exact h.fail _ rfl
  · rw [evalHead_definition hform]
    obtain ⟨name', body, rfl⟩ | ⟨cause, heval⟩ := evalDefinition_cases children
    · obtain rfl := SpecialForm.name_of_ofName? hform
      rw [evalDefinition_leaf]
      exact h.define name' body hwithin (hrow body (by simp))
    · rw [heval]
      exact h.fail _ rfl

/-- What the parts of an evaluation uphold holds of the evaluation of everything that stands in
the expression. -/
theorem eval_of_within (h : e.Upholds value P Q) {c : Expr} (hc : Within c e) : P c.eval := by
  induction c using Expr.induction with
  | node head children ih =>
      rw [eval_node]
      refine h.note _ ?_
      exact h.evalHead hc fun d hd => ih d hd (Within.of_mem hd hc)

/-- What the parts of an evaluation uphold holds of the evaluation. -/
theorem eval (h : e.Upholds value P Q) : P e.eval :=
  h.eval_of_within (Within.refl e)

end Upholds

/-! ### What every evaluation keeps -/

/-- A property of computations is kept by an expression if it holds of the parts of which its
evaluation is put together: values, failures without a reset, records of nodes, one computation
after another, and the two forms with a name, wherever they stand in the expression. -/
structure Keeps (e : Expr) (P : ∀ α : Type, Eval α → Prop) : Prop where
  /-- Giving a value. -/
  pure : ∀ {α : Type} (a : α), P α (pure a)
  /-- Failing without a reset. -/
  fail : ∀ {α : Type} (error : EvalError), error.resets = false → P α (Eval.fail error)
  /-- Keeping the record of a node. -/
  note : ∀ e : Expr, P Unit (Eval.note (.evaluating e))
  /-- One computation after another. -/
  bind : ∀ {α β : Type} {first : Eval α} {next : α → Eval β},
    P α first → (∀ a, P β (next a)) → P β (first >>= next)
  /-- A name with operands. -/
  call : ∀ name children, SpecialForm.ofName? name = none →
    Within ⟨some (.symbol name), children⟩ e →
    P (List Atom) (evalOperands name 1 children) →
    P Expr (callSymbol name (evalOperands name 1 children))
  /-- The definition of a name. -/
  define : ∀ name body, Within (definition name body) e → P Expr body.eval →
    P Expr (defineSymbol name body.eval)

namespace Keeps

variable {e : Expr} {P : ∀ α : Type, Eval α → Prop} {row : List Expr}

/-- Computations under a map keep what they keep without it. -/
theorem map (h : e.Keeps P) {α β : Type} (f : α → β) {first : Eval α} (hfirst : P α first) :
    P β (f <$> first) := by
  rw [← bind_pure_comp]
  exact h.bind hfirst fun a => h.pure (f a)

/-- What is kept is upheld, whatever the values are. -/
theorem upholds (h : e.Keeps P) : e.Upholds (fun _ => True) (P Expr) (P (List Atom)) where
  empty := trivial
  number _ := trivial
  boolean _ := trivial
  pure _ := h.pure _
  fail := h.fail
  note e _ hnext := h.bind (h.note e) fun _ => hnext
  bind hfirst hnext := h.bind hfirst fun v => hnext v trivial
  nil := h.pure []
  cons _ _ hrest := h.map _ hrest
  missing := h.fail
  operand hfirst hnext := h.bind hfirst fun v => hnext v trivial
  call := h.call
  define := h.define

/-- A row of expressions in sequence keeps what each of them keeps. -/
theorem evalSequence (h : e.Keeps P) (hrow : ∀ c ∈ row, P Expr c.eval) (value : Expr) :
    P Expr (evalSequence value row) :=
  h.upholds.evalSequence hrow trivial

/-- What follows the value of an operand keeps what the operands after it keep. -/
theorem collect (h : e.Keeps P) {procedure : String} {position : Nat}
    (hrest : P (List Atom) (Expr.evalOperands procedure (position + 1) row)) (value : Expr) :
    P (List Atom) (collect procedure position row value) :=
  h.upholds.collect hrest trivial

/-- A row of operands keeps what each of them keeps. -/
theorem evalOperands (h : e.Keeps P) (hrow : ∀ c ∈ row, P Expr c.eval) (procedure : String)
    (position : Nat) : P (List Atom) (evalOperands procedure position row) :=
  h.upholds.evalOperands hrow procedure position

/-- What a condition decides keeps what both alternatives keep. -/
theorem choose (h : e.Keeps P) {consequent alternate : Expr} (hc : P Expr consequent.eval)
    (ha : P Expr alternate.eval) (value : Expr) : P Expr (choose consequent alternate value) :=
  h.upholds.choose hc ha value

/-- What the parts of an evaluation keep holds of the evaluation. -/
theorem eval (h : e.Keeps P) : P Expr e.eval :=
  h.upholds.eval

end Keeps

end Expr

end FlatLisp
