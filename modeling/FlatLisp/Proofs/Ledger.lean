import FlatLisp.Proofs.Scope
import FlatLisp.Proofs.Subexpression
import FlatLisp.Session

/-!
# What the Records Tell

The records of an evaluation can be trusted. A warning is kept exactly when the scope is reset: it
is the last record then, and the only warning. Without a reset the records say how the scope came
about: whoever binds, in order, what they say is bound comes from the scope before the evaluation to
the scope after it.

Both are one law of computations, `Eval.Accounted`, which the parts of an evaluation obey. The point
where it could fail is a definition, whose record comes after those of its value: these have brought
the scope to where the name is bound.

## Main definitions

* `Env.replay`: the scope that some records lead to.
* `Outcome.Accounted`: records that account for an outcome.

## Main results

* `Env.contains_replay`, `Env.lookup_replay_of_last`: what is bound after some records.
* `Expr.eval_accounted`: every evaluation is accounted for.
* `Session.records_tell`: what the records of a session tell.
-/

namespace FlatLisp

/-! ### Replaying records -/

/-- The scope after a record: a definition has bound its name, and no other record is about a
binding. -/
def Record.replay (env : Env) : Record → Env
  | defining name value => env.insert name (.value value)
  | _ => env

/-- The scope that some records lead to, one after the other. -/
def Env.replay (env : Env) (records : List Record) : Env :=
  records.foldl Record.replay env

namespace Env

variable {env : Env} {name : String} {value : Expr} {records front back : List Record}

theorem replay_append (env : Env) (front back : List Record) :
    env.replay (front ++ back) = (env.replay front).replay back :=
  List.foldl_append

theorem replay_concat_defining (env : Env) (records : List Record) (name : String) (value : Expr) :
    env.replay (records ++ [.defining name value]) =
      (env.replay records).insert name (.value value) := by
  rw [replay_append]
  rfl

/-- A record binds the name it defines, and no other. -/
theorem contains_replay_record {record : Record} :
    (record.replay env).contains name = true ↔
      (∃ value, record = .defining name value) ∨ env.contains name = true := by
  cases record with
  | defining other value =>
      rw [Record.replay, contains_insert]
      simp [eq_comm (a := name)]
  | _ => simp [Record.replay]

/-- **After some records the names are bound that were bound before, and those that the records
define.** -/
theorem contains_replay :
    (env.replay records).contains name = true ↔
      env.contains name = true ∨ ∃ value, .defining name value ∈ records := by
  induction records generalizing env with
  | nil => simp [replay]
  | cons record records ih =>
      show ((record.replay env).replay records).contains name = true ↔ _
      rw [ih, contains_replay_record, or_assoc, or_left_comm]
      simp only [List.mem_cons, exists_or, eq_comm]

/-- Records that do not define a name leave what it stands for. -/
theorem lookup_replay_of_not_mem (h : ∀ value, .defining name value ∉ records) :
    (env.replay records).lookup name = env.lookup name := by
  induction records generalizing env with
  | nil => rfl
  | cons record records ih =>
      have hrest : ((record.replay env).replay records).lookup name =
          (record.replay env).lookup name :=
        ih fun value hmem => h value (List.mem_cons_of_mem record hmem)
      have hne (value : Expr) : .defining name value ≠ record :=
        fun heq => h value (heq ▸ List.mem_cons_self ..)
      rw [replay, List.foldl_cons, ← replay, hrest]
      cases record with
      | defining other value =>
          rw [Record.replay, lookup_insert, if_neg]
          rintro rfl
          exact hne value rfl
      | _ => rfl

/-- **The last record that defines a name tells what it stands for.** -/
theorem lookup_replay_of_last (h : ∀ value, .defining name value ∉ back) :
    (env.replay (front ++ .defining name value :: back)).lookup name = some (.value value) := by
  rw [replay_append]
  show (((env.replay front).insert name (.value value)).replay back).lookup name = _
  rw [lookup_replay_of_not_mem h, lookup_insert, if_pos rfl]

/-- A name that some records define is defined by one of them last. -/
theorem exists_last_defining (h : .defining name value ∈ records) :
    ∃ front last back, records = front ++ .defining name last :: back ∧
      ∀ value, .defining name value ∉ back := by
  induction records generalizing value with
  | nil => cases h
  | cons record records ih =>
      by_cases hlater : ∃ value, .defining name value ∈ records
      · obtain ⟨value, hvalue⟩ := hlater
        obtain ⟨front, last, back, rfl, hback⟩ := ih hvalue
        exact ⟨record :: front, last, back, rfl, hback⟩
      · rw [not_exists] at hlater
        rcases List.mem_cons.mp h with rfl | hmem
        · exact ⟨[], value, records, rfl, hlater⟩
        · exact absurd hmem (hlater value)

/-- A name that some records have bound anew stands for what the last record about it shows. -/
theorem exists_last_of_new (hname : (env.replay records).contains name = true)
    (hfree : env.contains name = false) :
    ∃ front value back, records = front ++ .defining name value :: back ∧
      (∀ other, .defining name other ∉ back) ∧
      (env.replay records).lookup name = some (.value value) := by
  rcases contains_replay.mp hname with hbound | ⟨value, hvalue⟩
  · exact absurd (hfree.symm.trans hbound) Bool.false_ne_true
  · obtain ⟨front, last, back, rfl, hback⟩ := exists_last_defining hvalue
    exact ⟨front, last, back, rfl, hback, lookup_replay_of_last hback⟩

end Env

/-! ### Accounts of outcomes -/

/-- The warning that goes with a failure, if the failure resets the scope. -/
def EvalError.warning? : EvalError → Option Record
  | alreadyDefined name => some (.redefinition name)
  | procedureFailed _ cause => some (.refusal cause)
  | _ => none

/-- The warning that goes with a result. -/
def warning? {α : Type} : Except EvalError α → Option Record
  | .error error => error.warning?
  | .ok _ => none

/-- The records that are neither warnings nor failures. -/
def Record.Quiet (record : Record) : Prop :=
  record.severity = .debug ∨ record.severity = .trace

theorem Record.Quiet.severity_ne {record : Record} (h : record.Quiet) :
    record.severity ≠ .warn ∧ record.severity ≠ .error := by
  rcases h with h | h <;> simp [h]

/-- What goes with a failure as its warning is a warning. -/
theorem severity_of_warning? {α : Type} {result : Except EvalError α} {record : Record}
    (h : warning? result = some record) : record.severity = .warn := by
  rcases result with (_ | _ | _ | _ | _ | _) | _ <;> cases h <;> rfl

theorem warning?_ne_none_iff {α : Type} {result : Except EvalError α} :
    warning? result ≠ none ↔
      (∃ name, result = .error (.alreadyDefined name)) ∨
        ∃ procedure cause, result = .error (.procedureFailed procedure cause) := by
  rcases result with (_ | _ | _ | _ | _ | _) | _ <;> simp [warning?, EvalError.warning?]

/-- A failure without a warning is one without a reset. -/
theorem EvalError.warning?_of_resets {error : EvalError} (h : error.resets = false) :
    error.warning? = none := by
  cases error with
  | alreadyDefined => cases h
  | procedureFailed => cases h
  | _ => rfl

/-- Records that account for an outcome, from the scope before it: quiet ones, which lead to the
scope that is left if it is not reset, and then the warning of the failure if it is. -/
def Outcome.Accounted {α : Type} (env : Env) (outcome : Outcome α) : Prop :=
  ∃ quiet, (∀ record ∈ quiet, record.Quiet) ∧
    outcome.records = quiet ++ (warning? outcome.result).toList ∧
    (warning? outcome.result = none → outcome.env = env.replay quiet)

/-- A computation whose records account for its outcome, from whatever scope it starts. -/
def Eval.Accounted {α : Type} (computation : Eval α) : Prop :=
  ∀ env, (computation.run env).Accounted env

namespace Outcome.Accounted

variable {α β : Type} {env : Env}

/-- Without records, the scope is the one before. -/
theorem of_unchanged {result : Except EvalError α} (h : warning? result = none) :
    (⟨result, env, []⟩ : Outcome α).Accounted env :=
  ⟨[], nofun, by rw [h]; rfl, fun _ => rfl⟩

/-- After a reset, one warning is enough. -/
theorem of_reset {error : EvalError} {warning : Record} {after : Env}
    (h : error.warning? = some warning) :
    (⟨.error error, after, [warning]⟩ : Outcome α).Accounted env := by
  refine ⟨[], nofun, ?_, fun hnone => ?_⟩
  · rw [warning?, h, Option.toList_some, List.nil_append]
  · rw [warning?, h] at hnone
    cases hnone

/-- A failure is accounted for by the records of the part that failed. -/
theorem of_error {error : EvalError} {after : Env} {records : List Record}
    (h : (⟨.error error, after, records⟩ : Outcome α).Accounted env) :
    (⟨.error error, after, records⟩ : Outcome β).Accounted env :=
  h

/-- Accounts add up: after quiet records, an account from the scope that they lead to is one from
the scope before them. -/
theorem after {quiet : List Record} {outcome : Outcome α}
    (hquiet : ∀ record ∈ quiet, record.Quiet) (h : outcome.Accounted (env.replay quiet)) :
    (outcome.after quiet).Accounted env := by
  obtain ⟨later, hlater, hrecords, henv⟩ := h
  refine ⟨quiet ++ later, fun record hrecord => ?_, ?_, fun hnone => ?_⟩
  · exact (List.mem_append.mp hrecord).elim (hquiet record) (hlater record)
  · rw [Outcome.after, hrecords, List.append_assoc]
  · rw [Env.replay_append]
    exact henv hnone

/-- With a value, an account is made of quiet records alone. -/
theorem of_ok {a : α} {after : Env} {records : List Record}
    (h : (⟨.ok a, after, records⟩ : Outcome α).Accounted env) :
    (∀ record ∈ records, record.Quiet) ∧ after = env.replay records := by
  obtain ⟨quiet, hquiet, hrecords, henv⟩ := h
  have hquiet_eq : records = quiet := hrecords.trans (List.append_nil quiet)
  rw [hquiet_eq]
  exact ⟨hquiet, henv rfl⟩

/-- **There is a warning exactly if the scope is reset.** -/
theorem exists_warn_iff {outcome : Outcome α} (h : outcome.Accounted env) :
    (∃ record ∈ outcome.records, record.severity = .warn) ↔ warning? outcome.result ≠ none := by
  obtain ⟨quiet, hquiet, hrecords, -⟩ := h
  rw [hrecords]
  constructor
  · rintro ⟨record, hrecord, hwarn⟩ hnone
    rw [hnone, Option.toList_none, List.append_nil] at hrecord
    exact (hquiet record hrecord).severity_ne.1 hwarn
  · intro hsome
    obtain ⟨warning, hwarning⟩ := Option.ne_none_iff_exists'.mp hsome
    exact ⟨warning, by simp [hwarning], severity_of_warning? hwarning⟩

/-- No failure is among the records. -/
theorem severity_ne_error {outcome : Outcome α} (h : outcome.Accounted env) {record : Record}
    (hrecord : record ∈ outcome.records) : record.severity ≠ .error := by
  obtain ⟨quiet, hquiet, hrecords, -⟩ := h
  rw [hrecords] at hrecord
  rcases List.mem_append.mp hrecord with hmem | hmem
  · exact (hquiet record hmem).severity_ne.2
  · rw [severity_of_warning? (Option.mem_toList.mp hmem)]
    decide

/-- Without a reset, the records lead to the scope that is left. -/
theorem env_eq_replay {outcome : Outcome α} (h : outcome.Accounted env)
    (hnone : warning? outcome.result = none) : outcome.env = env.replay outcome.records := by
  obtain ⟨quiet, -, hrecords, henv⟩ := h
  rw [hrecords, hnone, Option.toList_none, List.append_nil]
  exact henv hnone

end Outcome.Accounted

namespace Eval.Accounted

variable {α β : Type}

theorem pure (a : α) : (pure a : Eval α).Accounted :=
  fun _ => .of_unchanged rfl

theorem fail {error : EvalError} (h : error.resets = false) :
    (Eval.fail error : Eval α).Accounted :=
  fun _ => .of_unchanged (EvalError.warning?_of_resets h)

theorem note_evaluating (e : Expr) : (Eval.note (.evaluating e)).Accounted :=
  fun _ => ⟨[.evaluating e], by simp [Record.Quiet, Record.severity], rfl, fun _ => rfl⟩

theorem note_applying (name : String) (args : List Atom) :
    (Eval.note (.applying name args)).Accounted :=
  fun _ => ⟨[.applying name args], by simp [Record.Quiet, Record.severity], rfl, fun _ => rfl⟩

/-- A sequence is accounted for if its parts are: a failure ends it, and accounts add up. -/
theorem bind {first : Eval α} {next : α → Eval β} (hfirst : first.Accounted)
    (hnext : ∀ a, (next a).Accounted) : (first >>= next).Accounted := by
  intro env
  have haccount := hfirst env
  rcases h : first.run env with ⟨error | a, mid, records⟩
  · rw [h] at haccount
    rw [run_bind_error next h]
    exact haccount.of_error
  · rw [h] at haccount
    obtain ⟨hquiet, rfl⟩ := haccount.of_ok
    rw [run_bind_ok next h]
    exact (hnext a _).after hquiet

/-- A call by name warns if it fails, and that is when it resets the scope. -/
theorem call (name : String) (args : List Atom) : (Eval.call name args).Accounted := by
  intro env
  rw [call_run]
  rcases env.call name args with cause | e
  · exact .of_reset rfl
  · exact .of_unchanged rfl

theorem callSymbol (name : String) {args : Eval (List Atom)} (hargs : args.Accounted) :
    (Expr.callSymbol name args).Accounted := by
  intro env
  rcases hlookup : env.lookup name with _ | e | p
  · rw [Expr.run_callSymbol_of_unbound hlookup]
    exact .of_unchanged rfl
  · rw [Expr.run_callSymbol_of_value hlookup]
    exact .of_unchanged rfl
  · rw [Expr.run_callSymbol_of_procedure hlookup]
    exact hargs.bind (fun args => (note_applying name args).bind fun _ => call name args) env

/-- A definition warns if its name is taken, and otherwise keeps its record after those of its
value. -/
theorem defineSymbol (name : String) {body : Eval Expr} (hbody : body.Accounted) :
    (Expr.defineSymbol name body).Accounted := by
  intro env
  rcases Expr.taken_or_free env name with htaken | ⟨hfree, hopen⟩
  · rw [Expr.run_defineSymbol_of_taken htaken]
    exact .of_reset rfl
  have haccount := hbody env
  rcases h : body.run env with ⟨error | value, mid, records⟩
  · rw [h] at haccount
    rw [Expr.run_defineSymbol_of_error hfree hopen h]
    exact haccount
  · rw [h] at haccount
    obtain ⟨hquiet, rfl⟩ := haccount.of_ok
    rw [Expr.run_defineSymbol_of_ok hfree hopen h]
    refine ⟨records ++ [.defining name value], fun record hrecord => ?_, ?_, fun _ => ?_⟩
    · rcases List.mem_append.mp hrecord with hbefore | hlast
      · exact hquiet record hbefore
      · obtain rfl := List.mem_singleton.mp hlast
        exact .inl rfl
    · exact (List.append_nil _).symm
    · exact (Env.replay_concat_defining env records name value).symm

end Eval.Accounted

namespace Expr

/-- The parts of an evaluation are accounted for. -/
theorem keeps_accounted (e : Expr) : e.Keeps fun _ computation => computation.Accounted where
  pure := .pure
  fail _ := .fail
  note := .note_evaluating
  bind := .bind
  call name _ _ _ := .callSymbol name
  define name _ _ := .defineSymbol name

/-- **Every evaluation is accounted for by its records.** -/
theorem eval_accounted (e : Expr) : e.eval.Accounted :=
  e.keeps_accounted.eval

end Expr

/-! ### Sessions -/

namespace Session

theorem eval_records (s : Session) :
    s.eval.records = s.tryEval.records ++
      match s.tryEval.result with
      | .ok _ => []
      | .error error => [.failure error] := by
  cases h : s.tryEval.result with
  | error error => simp only [eval, h]
  | ok e => simp only [eval, h, List.append_nil]

/-- **What the records of a session tell**, whatever its scope and its program are. Those of an
evaluation are no warnings and no failures, up to the warning at the end that is there exactly after
one of the two failures that reset the scope. Without a reset, binding in order what they say is
bound leads from the scope before to the scope after: the names that are bound then are those that
were, and those that a record defines; and the last record about a name that is new shows the value
that the name stands for. An evaluation that never fails keeps the same records, and after them the
failure if there is one. -/
theorem records_tell (s : Session) :
    (∃ quiet, (∀ record ∈ quiet, record.severity ≠ .warn ∧ record.severity ≠ .error) ∧
      s.tryEval.records = quiet ++ (warning? s.tryEval.result).toList) ∧
    ((∃ record ∈ s.tryEval.records, record.severity = .warn) ↔
      (∃ name, s.tryEval.result = .error (.alreadyDefined name)) ∨
        ∃ procedure cause, s.tryEval.result = .error (.procedureFailed procedure cause)) ∧
    (warning? s.tryEval.result = none →
      s.tryEval.session.env = s.env.replay s.tryEval.records ∧
      (∀ name, s.tryEval.session.env.contains name = true ↔
        s.env.contains name = true ∨ ∃ value, .defining name value ∈ s.tryEval.records) ∧
      ∀ name, s.tryEval.session.env.contains name = true → s.env.contains name = false →
        ∃ front value back, s.tryEval.records = front ++ .defining name value :: back ∧
          (∀ other, .defining name other ∉ back) ∧
          s.tryEval.session.env.lookup name = some (.value value) ∧
          (Record.defining name value).message = "define " ++ name ++ " as " ++ value.display) ∧
    s.eval.records = s.tryEval.records ++
      (match s.tryEval.result with
        | .ok _ => []
        | .error error => [.failure error]) ∧
    ∀ record ∈ s.tryEval.records, record.severity ≠ .error := by
  have haccount : (s.program.eval.run s.env).Accounted s.env := s.program.eval_accounted s.env
  have ⟨quiet, hquiet, hrecords, _⟩ := haccount
  refine ⟨⟨quiet, fun record hrecord => (hquiet record hrecord).severity_ne, hrecords⟩,
    haccount.exists_warn_iff.trans warning?_ne_none_iff, fun hnone => ?_, s.eval_records,
    fun _ => haccount.severity_ne_error⟩
  have henv : s.tryEval.session.env = s.env.replay s.tryEval.records :=
    haccount.env_eq_replay hnone
  refine ⟨henv, fun name => ?_, fun name hname hfree => ?_⟩
  · rw [henv, Env.contains_replay]
  · rw [henv] at hname ⊢
    obtain ⟨front, value, back, hsplit, hback, hlookup⟩ := Env.exists_last_of_new hname hfree
    exact ⟨front, value, back, hsplit, hback, hlookup, rfl⟩

end Session

end FlatLisp
