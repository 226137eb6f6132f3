import FlatLisp.Proofs.Growth
import Mathlib.Logic.Relation

/-!
# Evaluations inside an Evaluation

The evaluation of an expression starts evaluations of some of its children, each in the scope
that the earlier ones leave: the elements of a sequence as far as it gets, a condition and the
branch that it selects, the body of a definition whose name is free, and the operands of a
procedure. `Starts` lists these cases, and `Reaches` is any number of them, one inside the next.

Each case is a point at which the evaluation is a part followed by a continuation, and what is
known of sequences of computations passes from the part to the whole.

## Main results

* `Evaluation.Starts.resumes`: the whole is the part that it starts, and a continuation.
* `Evaluation.Reaches.outcome_of_error`: a failure surfaces unchanged through any nesting.
* `Evaluation.Reaches.contains`: what a reached evaluation binds stays bound.
* `Evaluation.Reaches.records_subset`: what a reached evaluation records is recorded.
-/

namespace FlatLisp

/-- An evaluation: an expression, and the scope that it finds. -/
structure Evaluation where
  /-- The expression. -/
  expr : Expr
  /-- The scope at the beginning. -/
  env : Env

/-- A row of expressions is evaluated to its end from one scope to another, and each value
passes the test. -/
inductive Passes (test : Expr → Prop) : Env → List Expr → Env → Prop
  | nil (env : Env) : Passes test env [] env
  | cons {env mid after : Env} {e value : Expr} {rest : List Expr} {records : List Record} :
      e.eval.run env = ⟨.ok value, mid, records⟩ → test value → Passes test mid rest after →
      Passes test env (e :: rest) after

namespace Evaluation

/-- What becomes of an evaluation. -/
def outcome (t : Evaluation) : Outcome Expr :=
  t.expr.eval.run t.env

/-- One evaluation starts another, as a part of itself. -/
inductive Starts : Evaluation → Evaluation → Prop
  | element {e : Expr} {front back : List Expr} {env mid : Env} :
      Passes (fun _ => True) env front mid →
      Starts ⟨⟨some (.symbol SpecialForm.sequence.name), front ++ e :: back⟩, env⟩ ⟨e, mid⟩
  | condition {condition consequent alternate : Expr} {env : Env} :
      Starts ⟨⟨some (.symbol SpecialForm.conditional.name),
        [condition, consequent, alternate]⟩, env⟩ ⟨condition, env⟩
  | branch {condition consequent alternate value : Expr} {b : Bool} {env mid : Env}
      {records : List Record} :
      condition.eval.run env = ⟨.ok value, mid, records⟩ → value.head = some (.boolean b) →
      Starts ⟨⟨some (.symbol SpecialForm.conditional.name),
        [condition, consequent, alternate]⟩, env⟩ ⟨if b then consequent else alternate, mid⟩
  | body {name : String} {body : Expr} {env : Env} :
      env.contains name = false → SpecialForm.ofName? name = none →
      Starts ⟨Expr.definition name body, env⟩ ⟨body, env⟩
  | operand {name : String} {p : Procedure} {e : Expr} {front back : List Expr}
      {env mid : Env} :
      SpecialForm.ofName? name = none → env.lookup name = some (.procedure p) →
      Passes (fun value => value.head ≠ none) env front mid →
      Starts ⟨⟨some (.symbol name), front ++ e :: back⟩, env⟩ ⟨e, mid⟩

/-- One evaluation starts another somewhere inside, at any depth, or is the other itself. -/
def Reaches : Evaluation → Evaluation → Prop :=
  Relation.ReflTransGen Starts

/-- One evaluation starts another somewhere inside, and is not the other itself. -/
def ReachesInside : Evaluation → Evaluation → Prop :=
  Relation.TransGen Starts

/-- An evaluation starts evaluations of children only. -/
theorem Starts.mem {t u : Evaluation} (h : Starts t u) : u.expr ∈ t.expr.children := by
  cases h with
  | element _ => simp
  | condition => simp
  | @branch _ _ _ _ b => cases b <;> simp
  | body _ _ => simp [Expr.definition]
  | operand _ _ _ => simp

end Evaluation

/-! ### Where a part goes on -/

/-- After a part of a sequence has passed, the rest goes on in the scope that it left. -/
theorem Passes.run_evalSequence {test : Expr → Prop} {env mid : Env} {front : List Expr}
    (h : Passes test env front mid) (value : Expr) (back : List Expr) :
    ∃ value' records, (Expr.evalSequence value (front ++ back)).run env =
      ((Expr.evalSequence value' back).run mid).after records := by
  induction h generalizing value with
  | nil env => exact ⟨value, [], rfl⟩
  | @cons env mid after e value' rest records hrun _ _ ih =>
      obtain ⟨last, more, hrest⟩ := ih value'
      refine ⟨last, records ++ more, ?_⟩
      rw [List.cons_append, Expr.evalSequence_cons, Eval.run_bind_ok _ hrun, hrest,
        ← Outcome.after_after]
      rfl

/-- After a part of a row of operands has passed, the rest goes on in the scope that it left,
and its atoms come after those that are there. -/
theorem Passes.run_evalOperands {env mid : Env} {front : List Expr}
    (h : Passes (fun value => value.head ≠ none) env front mid) (procedure : String)
    (position : Nat) (back : List Expr) :
    ∃ (atoms : List Atom) (records : List Record),
      (Expr.evalOperands procedure position (front ++ back)).run env =
        (((atoms ++ ·) <$> Expr.evalOperands procedure (position + front.length) back).run
          mid).after records := by
  induction h generalizing position with
  | nil env => exact ⟨[], [], by simp⟩
  | @cons env mid after e value rest records hrun hhead _ ih =>
      obtain ⟨atoms, more, hrest⟩ := ih (position + 1)
      obtain ⟨atom, hatom⟩ := Option.ne_none_iff_exists'.mp hhead
      have hposition : position + (e :: rest).length = position + 1 + rest.length := by
        rw [List.length_cons, Nat.add_comm rest.length, Nat.add_assoc]
      refine ⟨atom :: atoms, records ++ more, ?_⟩
      rw [List.cons_append, Expr.evalOperands_cons, Eval.run_bind_ok _ hrun,
        Expr.collect_of_head hatom, hposition]
      simp only [Eval.run_map, hrest, ← Outcome.after_after]
      rcases (Expr.evalOperands procedure (position + 1 + rest.length) back).run after with
        ⟨_ | _, _, _⟩ <;> rfl

namespace Evaluation

theorem outcome_eq (head : Option Atom) (children : List Expr) (env : Env) :
    outcome ⟨⟨head, children⟩, env⟩ =
      ((Expr.evalHead head children).run env).after [.evaluating ⟨head, children⟩] :=
  Expr.run_eval head children env

/-- An evaluation is the part that it starts and a continuation, in which what is bound stays
bound. Only records stand in front. -/
theorem Starts.resumes {t u : Evaluation} (h : Starts t u) :
    ∃ (next : Expr → Eval Expr) (records : List Record),
      t.outcome = ((u.expr.eval >>= next).run u.env).after records ∧
      ∀ value, (next value).KeepsNames := by
  have hgrows (c : Expr) : c.eval.Grows fun _ => True :=
    (Expr.keeps_grows fun _ _ => trivial).eval
  have hkeeps : Expr.empty.Keeps fun _ c => c.Grows fun _ => True :=
    Expr.keeps_grows fun _ _ => trivial
  cases h with
  | @element e front back env mid hfront =>
      obtain ⟨value, records, hrun⟩ := hfront.run_evalSequence .empty (e :: back)
      have hrest (value : Expr) : (Expr.evalSequence value back).Grows fun _ => True :=
        hkeeps.evalSequence (fun c _ => hgrows c) value
      rw [outcome_eq, Expr.evalHead_sequence (SpecialForm.ofName?_name _), hrun,
        Expr.evalSequence_cons, Outcome.after_after]
      exact ⟨_, _, rfl, fun value => (hrest value).keepsNames⟩
  | @condition condition consequent alternate env =>
      rw [outcome_eq, Expr.evalHead_conditional (SpecialForm.ofName?_name _),
        Expr.evalConditional_three]
      refine ⟨_, _, rfl, fun value => ?_⟩
      exact (hkeeps.choose (hgrows consequent) (hgrows alternate) value).keepsNames
  | @branch condition consequent alternate value b env mid records hrun hvalue =>
      -- A conditional does nothing after its branch, and what it did before are records here.
      have hpart : (condition.eval >>= Expr.choose consequent alternate).run env =
          (((if b then consequent else alternate).eval >>= pure).run mid).after records := by
        rw [Eval.run_bind_ok _ hrun, Expr.choose_of_boolean hvalue, bind_pure]
        rfl
      rw [outcome_eq, Expr.evalHead_conditional (SpecialForm.ofName?_name _),
        Expr.evalConditional_three, hpart, Outcome.after_after]
      exact ⟨pure, _, rfl, fun value => (hkeeps.pure value).keepsNames⟩
  | @body name body env hfree hname =>
      rw [Expr.definition, outcome_eq, Expr.evalHead_definition (SpecialForm.ofName?_name _),
        Expr.evalDefinition_leaf, Expr.run_defineSymbol_of_free hfree hname]
      refine ⟨_, _, rfl, fun value env other hother _ => ?_⟩
      exact Env.contains_insert.mpr (Or.inr hother)
  | @operand name p e front back env mid hname hp hfront =>
      obtain ⟨atoms, records, hrun⟩ := hfront.run_evalOperands name 1 (e :: back)
      rw [outcome_eq, Expr.evalHead_call hname, Expr.run_callSymbol_of_procedure hp,
        Eval.run_bind_after _ hrun, Expr.evalOperands_cons, map_bind, bind_assoc,
        Outcome.after_after]
      have hback := hkeeps.evalOperands (fun c (_ : c ∈ back) => hgrows c) name
        (1 + front.length + 1)
      refine ⟨_, _, rfl, fun value => @Eval.Grows.keepsNames Expr (fun _ => True) _ ?_⟩
      exact hkeeps.bind (hkeeps.map _ (hkeeps.collect hback value)) (Eval.Grows.apply name)

/-- A failure that is started is the failure of the whole, and leaves the same scope. -/
theorem Starts.outcome_of_error {t u : Evaluation} {error : EvalError} (h : Starts t u)
    (hu : u.outcome.result = .error error) :
    t.outcome.result = .error error ∧ t.outcome.env = u.outcome.env := by
  obtain ⟨next, records, hrun, -⟩ := h.resumes
  change (u.expr.eval.run u.env).result = .error error at hu
  rw [hrun, Eval.run_bind, hu]
  exact ⟨rfl, rfl⟩

/-- What a started evaluation binds stays bound, unless the whole resets the scope. -/
theorem Starts.contains {t u : Evaluation} {name : String} (h : Starts t u)
    (hname : u.outcome.env.contains name = true) (hresets : t.outcome.resets = false) :
    t.outcome.env.contains name = true := by
  rcases hu : u.outcome with ⟨error | value, mid, records⟩
  · have hsame := h.outcome_of_error (congrArg Outcome.result hu)
    rw [hsame.2]
    exact hname
  · obtain ⟨next, more, hrun, hkeeps⟩ := h.resumes
    rw [Eval.run_bind_ok next hu] at hrun
    rw [hu] at hname
    rw [hrun] at hresets ⊢
    exact hkeeps value mid name hname hresets

/-- What a started evaluation records is recorded. -/
theorem Starts.records_subset {t u : Evaluation} (h : Starts t u) :
    u.outcome.records ⊆ t.outcome.records := by
  obtain ⟨next, records, hrun, -⟩ := h.resumes
  intro record hrecord
  rw [hrun, Outcome.after, Eval.run_bind]
  refine List.mem_append_right records ?_
  split
  · exact hrecord
  · exact List.mem_append_left _ hrecord

/-- **A failure surfaces unchanged** through any nesting: if an evaluation that is reached fails,
the whole fails with the same error and leaves the same scope. -/
theorem Reaches.outcome_of_error {t u : Evaluation} {error : EvalError} (h : Reaches t u)
    (hu : u.outcome.result = .error error) :
    t.outcome.result = .error error ∧ t.outcome.env = u.outcome.env := by
  induction h using Relation.ReflTransGen.head_induction_on with
  | refl => exact ⟨hu, rfl⟩
  | head hstart _ ih =>
      obtain ⟨hresult, henv⟩ := hstart.outcome_of_error ih.1
      exact ⟨hresult, henv.trans ih.2⟩

/-- What a reached evaluation binds stays bound, unless the whole resets the scope. -/
theorem Reaches.contains {t u : Evaluation} {name : String} (h : Reaches t u)
    (hname : u.outcome.env.contains name = true) (hresets : t.outcome.resets = false) :
    t.outcome.env.contains name = true := by
  induction h using Relation.ReflTransGen.head_induction_on with
  | refl => exact hname
  | @head t mid hstart _ ih =>
      refine hstart.contains (ih ?_) hresets
      rcases hmid : mid.outcome.result with error | value
      · have hsame := hstart.outcome_of_error hmid
        rw [Outcome.resets, hsame.1] at hresets
        rw [Outcome.resets, hmid]
        exact hresets
      · rw [Outcome.resets, hmid]

/-- What is reached stands inside the expression. -/
theorem Reaches.within {t u : Evaluation} (h : Reaches t u) : u.expr.Within t.expr := by
  induction h using Relation.ReflTransGen.head_induction_on with
  | refl => exact .refl _
  | head hstart _ ih => exact ih.trans (Expr.Within.of_mem_children hstart.mem)

/-- What a reached evaluation records is recorded. -/
theorem Reaches.records_subset {t u : Evaluation} (h : Reaches t u) :
    u.outcome.records ⊆ t.outcome.records := by
  induction h using Relation.ReflTransGen.head_induction_on with
  | refl => exact fun _ hrecord => hrecord
  | head hstart _ ih => exact fun _ hrecord => hstart.records_subset (ih hrecord)

end Evaluation

end FlatLisp
