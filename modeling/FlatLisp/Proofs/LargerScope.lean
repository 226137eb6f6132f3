import FlatLisp.Proofs.Growth

/-!
# Evaluation in a Larger Scope

An expression that has a value in some scope is evaluated again in a larger one. The two runs
go in lockstep: what the first finds bound, the second finds bound to the same, and the bindings
that only the second has are a frame that neither looks at. There is one exception. Where the
first defines a name of the frame, the second finds it taken, fails and resets the scope, and
this failure is that of the whole.

## Main results

* `Expr.eval_lockstep`: the two runs agree until a definition meets the frame.
* `Expr.eval_of_le`: what becomes of the second run, told by the names that the first adds.
-/

namespace FlatLisp

/-! ### Two runs -/

/-- After a value in the smaller scope, the run in the larger one gives the same value and keeps
the frame, or it stops at a definition of a name of the frame, which the smaller run has come to
bind. -/
def Eval.Lockstep {α : Type} (frame : String → Option Binding) (computation : Eval α) : Prop :=
  ∀ ⦃env large after : Env⦄ ⦃a : α⦄ ⦃records : List Record⦄, env.Framed frame large →
    computation.run env = ⟨.ok a, after, records⟩ →
    (∃ last more, computation.run large = ⟨.ok a, last, more⟩ ∧ after.Framed frame last) ∨
      ∃ name more, frame name ≠ none ∧ after.contains name = true ∧
        computation.run large = ⟨.error (.alreadyDefined name), .initial, more⟩

namespace Eval.Lockstep

variable {α β : Type} {frame : String → Option Binding}

/-- A computation that leaves the scope alone, and gives the same value in both, keeps
the frame. -/
theorem of_unchanged {computation : Eval α}
    (h : ∀ {env large after : Env} {a : α} {records : List Record}, env.Framed frame large →
      computation.run env = ⟨.ok a, after, records⟩ →
      after = env ∧ ∃ more, computation.run large = ⟨.ok a, large, more⟩) :
    computation.Lockstep frame := by
  intro env large after a records hframed hrun
  obtain ⟨rfl, more, hlarge⟩ := h hframed hrun
  exact Or.inl ⟨large, more, hlarge, hframed⟩

theorem pure (a : α) : (pure a : Eval α).Lockstep frame := by
  refine of_unchanged fun _ hrun => ?_
  cases hrun
  exact ⟨rfl, [], rfl⟩

theorem note (record : Record) : (Eval.note record).Lockstep frame := by
  refine of_unchanged fun _ hrun => ?_
  cases hrun
  exact ⟨rfl, [record], rfl⟩

theorem fail (error : EvalError) : (Eval.fail error : Eval α).Lockstep frame := by
  intro env large after a records _ hrun
  cases hrun

/-- Sequences go in lockstep if their parts do. A failure of the first part in the larger scope
is that of the sequence, and the name that caused it stays bound in the smaller one. -/
theorem bind {first : Eval α} {next : α → Eval β} (hfirst : first.Lockstep frame)
    (hnext : ∀ a, (next a).Lockstep frame) (hkeeps : ∀ a, (next a).KeepsNames) :
    (first >>= next).Lockstep frame := by
  intro env large after b records hframed hrun
  obtain ⟨a, mid, front, back, h₁, h₂, -⟩ := run_bind_ok_inv hrun
  rcases hfirst hframed h₁ with
    ⟨large', more, hlarge, hframed'⟩ | ⟨name, more, hname, hmid, hlarge⟩
  · rcases hnext a hframed' h₂ with
      ⟨last', more', hlast, hkept⟩ | ⟨name, more', hname, hafter, hlast⟩
    · refine Or.inl ⟨last', more ++ more', ?_, hkept⟩
      rw [run_bind_ok next hlarge, hlast]
    · refine Or.inr ⟨name, more ++ more', hname, hafter, ?_⟩
      rw [run_bind_ok next hlarge, hlast]
  -- Only the larger run has stopped: in the smaller one the name is bound and must stay so.
  · refine Or.inr ⟨name, more, hname, ?_, run_bind_error next hlarge⟩
    have hbound := hkeeps a mid name hmid (by rw [h₂]; rfl)
    rw [h₂] at hbound
    exact hbound

/-- A call that succeeds finds its procedure in both scopes. -/
theorem call (name : String) (args : List Atom) : (Eval.call name args).Lockstep frame := by
  refine of_unchanged fun {env large after e records} hframed hrun => ?_
  rw [call_run] at hrun
  rcases hcall : env.call name args with cause | value
  · rw [hcall] at hrun
    cases hrun
  rw [hcall] at hrun
  cases hrun
  rcases hname : env.lookup name with _ | binding
  · rw [Env.call, hname] at hcall
    cases hcall
  have hsame := Env.call_congr (hname.trans (hframed.lookup_of_some hname).symm) args
  refine ⟨rfl, [], ?_⟩
  rw [call_run, ← hsame, hcall]

/-- A symbol with operands stands for the same in both scopes, if it stands for something in the
smaller one. -/
theorem callSymbol (name : String) {args : Eval (List Atom)} (hargs : args.Lockstep frame) :
    (Expr.callSymbol name args).Lockstep frame := by
  intro env large after value records hframed hrun
  rcases hlookup : env.lookup name with _ | e | p
  · rw [Expr.run_callSymbol_of_unbound hlookup] at hrun
    cases hrun
  · rw [Expr.run_callSymbol_of_value hlookup] at hrun
    cases hrun
    have hlarge : (Expr.callSymbol name args).run large = ⟨.ok value, large, []⟩ :=
      Expr.run_callSymbol_of_value (hframed.lookup_of_some hlookup)
    exact Or.inl ⟨large, [], hlarge, hframed⟩
  · rw [Expr.run_callSymbol_of_procedure hlookup] at hrun
    rw [Expr.run_callSymbol_of_procedure (hframed.lookup_of_some hlookup)]
    have hcall (args : List Atom) :
        (Eval.note (.applying name args) >>= fun _ => Eval.call name args).Lockstep frame :=
      (note _).bind (fun _ => call name args) fun _ =>
        (@Grows.call (fun _ => True) name args).keepsNames
    have hkeeps (args : List Atom) :
        (Eval.note (.applying name args) >>= fun _ => Eval.call name args).KeepsNames :=
      (@Grows.apply (fun _ => True) name args).keepsNames
    exact hargs.bind hcall hkeeps hframed hrun

/-- A definition is where the runs part: a name of the frame is free in the smaller scope, and
taken in the larger one. -/
theorem defineSymbol {name : String} {body : Eval Expr} (hbody : body.Lockstep frame) :
    (Expr.defineSymbol name body).Lockstep frame := by
  intro env large after value records hframed hrun
  obtain ⟨hfree, hopen, mid, front, h, rfl⟩ := Expr.run_defineSymbol_ok_inv hrun
  by_cases hname : frame name = none
  · have hlarge : large.contains name = false := by
      rw [Env.contains_eq_false_iff, hframed.lookup_of_none hname]
      exact Env.contains_eq_false_iff.mp hfree
    rcases hbody hframed h with ⟨last, more, hlast, hkept⟩ | ⟨other, more, hother, hmid, hlast⟩
    · exact Or.inl ⟨_, _, Expr.run_defineSymbol_of_ok hlarge hopen hlast, hkept.insert hname _⟩
    · have hafter : (mid.insert name (.value value)).contains other = true :=
        Env.contains_insert.mpr (Or.inr hmid)
      exact Or.inr ⟨other, more, hother, hafter,
        Expr.run_defineSymbol_of_error hlarge hopen hlast⟩
  · obtain ⟨binding, hbinding⟩ := Option.ne_none_iff_exists'.mp hname
    have hlarge : large.contains name = true :=
      Env.contains_of_lookup ((hframed.lookup_of_frame hname).trans hbinding)
    have hafter : (mid.insert name (.value value)).contains name = true :=
      Env.contains_insert.mpr (Or.inl rfl)
    exact Or.inr ⟨name, _, hname, hafter, Expr.run_defineSymbol_of_taken (Or.inl hlarge)⟩

end Eval.Lockstep

namespace Expr

/-- The parts of an evaluation go in lockstep, and let the scope grow. -/
theorem keeps_lockstep (e : Expr) (frame : String → Option Binding) :
    e.Keeps fun _ computation =>
      computation.Lockstep frame ∧ computation.Grows fun _ => True where
  pure a := ⟨Eval.Lockstep.pure a, Eval.Grows.pure a⟩
  fail error h := ⟨Eval.Lockstep.fail error, Eval.Grows.fail h⟩
  note e := ⟨Eval.Lockstep.note (.evaluating e), Eval.Grows.note (.evaluating e)⟩
  bind hfirst hnext :=
    ⟨hfirst.1.bind (fun a => (hnext a).1) fun a => (hnext a).2.keepsNames,
      hfirst.2.bind fun a => (hnext a).2⟩
  call name _ _ _ hargs := ⟨hargs.1.callSymbol name, Eval.Grows.callSymbol name hargs.2⟩
  define _ _ _ hbody := ⟨hbody.1.defineSymbol, hbody.2.defineSymbol fun _ => trivial⟩

/-- **Lockstep**: the evaluations of an expression in a scope and in the same scope beside a
frame agree until a definition meets the frame. -/
theorem eval_lockstep (e : Expr) (frame : String → Option Binding) : e.eval.Lockstep frame :=
  (e.keeps_lockstep frame).eval.1

section

variable {e v : Expr} {env after large : Env} {records : List Record}

/-- In a larger scope the evaluation goes as before, and keeps what the scope has beyond the
smaller one, or it fails at a name that is bound there and that it added before. -/
theorem eval_beyond (h : e.eval.run env = ⟨.ok v, after, records⟩) (hle : env ≤ large) :
    ((∀ name, large.Beyond env name → ¬after.Beyond env name) ∧
      (e.eval.run large).result = .ok v ∧
      ∀ name,
        (large.Beyond env name →
          (e.eval.run large).env.lookup name = large.lookup name) ∧
        (¬large.Beyond env name →
          (e.eval.run large).env.lookup name = after.lookup name)) ∨
    ∃ name, large.Beyond env name ∧ after.Beyond env name ∧
      (e.eval.run large).result = .error (.alreadyDefined name) ∧
      (e.eval.run large).env = .initial := by
  have hframed := Env.framed_of_le hle
  rcases e.eval_lockstep _ hframed h with
    ⟨last, more, hrun, hkept⟩ | ⟨name, more, hname, hafter, hrun⟩
  · refine Or.inl ⟨fun name hbeyond hadded => ?_, by rw [hrun], fun name => ⟨fun hbeyond => ?_, ?_⟩⟩
    · have hfree := hkept.apart name (Env.beyond_ne_none_iff.mpr hbeyond)
      exact absurd (hfree.symm.trans hadded.1) Bool.false_ne_true
    · have hframe := Env.beyond_ne_none_iff.mpr hbeyond
      rw [hrun, hkept.lookup_of_frame hframe, hframed.lookup_of_frame hframe]
    · intro hbeyond
      rw [hrun, hkept.lookup_of_none (Env.beyond_eq_none_iff.mpr hbeyond)]
  · have hbeyond := Env.beyond_ne_none_iff.mp hname
    exact Or.inr ⟨name, hbeyond, ⟨hafter, hbeyond.2⟩, by rw [hrun], by rw [hrun]⟩

/-- **Success in a larger scope.** An expression that has a value in a scope has it in every
larger one, and adds the same, if no name that it adds is bound there already. Otherwise it fails
at such a name, and the scope is reset. A second evaluation in the scope that the first leaves is
a case of this: it gives the same again if the first has added nothing, and fails otherwise. -/
theorem eval_of_le (h : e.eval.run env = ⟨.ok v, after, records⟩) (hle : env ≤ large) :
    ((∀ name, large.Beyond env name → ¬after.Beyond env name) →
      (e.eval.run large).result = .ok v ∧
      ∀ name,
        (large.Beyond env name →
          (e.eval.run large).env.lookup name = large.lookup name) ∧
        (¬large.Beyond env name →
          (e.eval.run large).env.lookup name = after.lookup name)) ∧
    ((∃ name, large.Beyond env name ∧ after.Beyond env name) →
      ∃ name, large.Beyond env name ∧ after.Beyond env name ∧
        (e.eval.run large).result = .error (.alreadyDefined name) ∧
        (e.eval.run large).env = .initial) ∧
    ((∀ name, ¬after.Beyond env name) →
      (e.eval.run after).result = .ok v ∧
      ∀ name, (e.eval.run after).env.lookup name = after.lookup name) ∧
    ((∃ name, after.Beyond env name) →
      ∃ name, after.Beyond env name ∧
        (e.eval.run after).result = .error (.alreadyDefined name) ∧
        (e.eval.run after).env = .initial) := by
  have hgrows := (e.eval_grows env).kept (by rw [h]; rfl)
  rw [h] at hgrows
  refine ⟨fun hdisjoint => ?_, ?_, fun hnone => ?_, ?_⟩
  · rcases eval_beyond h hle with ⟨-, hsame⟩ | ⟨name, hlarge, hafter, -⟩
    · exact hsame
    · exact absurd hafter (hdisjoint name hlarge)
  · rintro ⟨name, hlarge, hafter⟩
    rcases eval_beyond h hle with ⟨hdisjoint, -⟩ | hfails
    · exact absurd hafter (hdisjoint name hlarge)
    · exact hfails
  · rcases eval_beyond h hgrows with ⟨-, hresult, hlookup⟩ | ⟨name, hafter, -⟩
    · exact ⟨hresult, fun name => (hlookup name).2 (hnone name)⟩
    · exact absurd hafter (hnone name)
  · rintro ⟨name, hafter⟩
    rcases eval_beyond h hgrows with ⟨hdisjoint, -⟩ | ⟨name, hafter, -, hfails⟩
    · exact absurd hafter (hdisjoint name hafter)
    · exact ⟨name, hafter, hfails⟩

/-- A definition of `x` goes well beside a binding of `y`, and fails the second time. -/
theorem eval_of_le_definition :
    let e := definition "x" (leaf (.boolean true))
    let large := Env.initial.insert "y" (.value empty)
    (e.eval.run large).result = .ok (leaf (.boolean true)) ∧
      (e.eval.run large).env.lookup "y" = some (.value empty) ∧
      ∃ name, (e.eval.run (e.eval.run .initial).env).result = .error (.alreadyDefined name) := by
  intro e large
  have hrun : e.eval.run .initial =
      ⟨.ok (leaf (.boolean true)), (e.eval.run .initial).env, (e.eval.run .initial).records⟩ := rfl
  have hle : Env.initial ≤ large := Env.le_insert (le_refl _) (by decide)
  obtain ⟨hsame, -, -, hagain⟩ := eval_of_le hrun hle
  have hdisjoint (name : String) (hlarge : large.Beyond .initial name) :
      ¬(e.eval.run .initial).env.Beyond .initial name := by
    rintro ⟨hafter, hfree⟩
    rcases Env.contains_insert.mp hlarge.1 with rfl | hbound
    · exact absurd hafter (by decide)
    · exact absurd (hfree.symm.trans hbound) Bool.false_ne_true
  obtain ⟨hresult, hlookup⟩ := hsame hdisjoint
  obtain ⟨name, -, herror, -⟩ := hagain ⟨"x", by decide, by decide⟩
  exact ⟨hresult, (hlookup "y").1 ⟨by decide, by decide⟩, name, herror⟩

end

end Expr

end FlatLisp
