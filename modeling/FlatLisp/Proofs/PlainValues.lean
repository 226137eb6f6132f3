import FlatLisp.Proofs.Grammar
import FlatLisp.Proofs.Scope
import FlatLisp.Proofs.Subexpression
import FlatLisp.Proofs.Words
import FlatLisp.Session

/-!
# What a Session Can Hold

However a session came about, by programs taken up and evaluated in any order, its scope holds
little: the built-ins under their names, `pi`, and names that a program can spell, each with a
plain value. A value is plain if it is the empty expression, a lone number or a lone boolean.

Two facts meet here. A program that was read has names in it that are words of its text and
that stand for symbols. And an evaluation of such a program keeps the scope sound: literals,
built-ins and conditions give plain values, stored values are plain already, and what a
definition stores is a value under a name of the program, which is not one of the built-ins since
it was free when the definition began.

## Main definitions

* `Expr.Plain`: the values.
* `IsName`: the names that a program can spell.
* `Env.Sound`: what a scope holds.
* `Session.reached`: the session after any calls.

## Main results

* `Expr.spelled_of_ofText`: the names in a program that was read can be spelled.
* `Expr.eval_sound`: an evaluation keeps a scope sound and gives a plain value.
* `Session.Sound.answer`: every call keeps a session sound.
* `Session.reached_holds`: what a session holds and gives.
-/

namespace FlatLisp

open Text

/-! ### Values and names -/

namespace Expr

/-- The values: the empty expression, a lone number or a lone boolean. -/
inductive Plain : Expr → Prop
  | empty : Plain empty
  | number (x : Float) : Plain (leaf (.number x))
  | boolean (b : Bool) : Plain (leaf (.boolean b))

/-- A lone atom is a value if it is no symbol. -/
theorem Plain.leaf {atom : Atom} (h : atom.type ≠ .symbol) : Plain (leaf atom) := by
  cases atom with
  | number x => exact .number x
  | boolean b => exact .boolean b
  | symbol name => exact absurd rfl h

/-- The atom of a value is no symbol. -/
theorem Plain.type_ne_symbol {e : Expr} {atom : Atom} (h : Plain e) (hhead : e.head = some atom) :
    atom.type ≠ .symbol := by
  cases h with
  | empty => cases hhead
  | number x =>
      cases hhead
      simp [Atom.type]
  | boolean b =>
      cases hhead
      simp [Atom.type]

/-- Values are alike at the root if they are alike as trees. -/
theorem Plain.alike_eq_deepAlike {a b : Expr} (ha : Plain a) (hb : Plain b) :
    a.alike b = a.deepAlike b := by
  cases ha <;> cases hb <;> simp [alike, deepAlike, deepAlikeEach, Expr.leaf, Expr.empty]

end Expr

/-- A name that a program can spell: one word by itself, which stands for the symbol of that
name. -/
def IsName (name : String) : Prop :=
  Token.ofText name = [⟨.word name, ⟨0, byteLength name.toList⟩⟩] ∧
    Atom.ofText? name = some (.symbol name)

/-- A word that stands for a symbol stands for that of its own name. -/
theorem Atom.eq_of_ofText? {text name : String} (h : ofText? text = some (.symbol name)) :
    name = text := by
  unfold ofText? at h
  split at h
  · cases h
  split at h
  · cases h
  split at h
  · cases h
  split at h
  · cases h
  split at h
  · cases h
  · cases h
    rfl

namespace Expr

/-- All names in an expression can be spelled. -/
def Spelled (e : Expr) : Prop :=
  ∀ name children, Within ⟨some (.symbol name), children⟩ e → IsName name

/-- The symbols in an expression are words of its tokens. -/
theorem Derives.word_mem {tokens : List Token} {e : Expr} (h : Derives tokens e) {name : String}
    {children : List Expr} (hname : Within ⟨some (.symbol name), children⟩ e) :
    (∃ s, ⟨.word name, s⟩ ∈ tokens) ∧ Atom.ofText? name = some (.symbol name) := by
  induction h with
  | @word text atom s hatom =>
      cases hname with
      | refl =>
          obtain rfl := Atom.eq_of_ofText? hatom
          exact ⟨⟨s, by simp⟩, hatom⟩
      | child hmem => cases hmem
  | nothing =>
      cases hname with
      | child hmem => cases hmem
  | @list text atom s t u parts hatom _ ih =>
      cases hname with
      | refl =>
          obtain rfl := Atom.eq_of_ofText? hatom
          exact ⟨⟨t, by simp⟩, hatom⟩
      | child hmem hwithin =>
          obtain ⟨part, hpart, rfl⟩ := List.mem_map.mp hmem
          obtain ⟨⟨s', hword⟩, hsymbol⟩ := ih part hpart hwithin
          have hflat := List.mem_flatMap.mpr ⟨part, hpart, hword⟩
          refine ⟨⟨s', ?_⟩, hsymbol⟩
          exact List.mem_cons_of_mem _ (List.mem_cons_of_mem _ (List.mem_append_left _ hflat))

/-- All names in a program that was read can be spelled. -/
theorem spelled_of_ofText {text : String} {e : Expr} (h : ofText text = .ok e) : Spelled e := by
  intro name children hname
  obtain ⟨⟨s, hword⟩, hatom⟩ := (ofTokens_eq_ok_iff.mp h).word_mem hname
  exact ⟨Token.ofText_of_isWord ((Token.stands_of_mem_ofText hword).word name rfl), hatom⟩

end Expr

/-! ### Scopes -/

/-- What a scope holds that came about by evaluations of programs. -/
structure Env.Sound (env : Env) : Prop where
  /-- Each built-in is there under its name. -/
  builtins : ∀ b : Builtin, env.lookup b.name = some (.procedure ⟨b.name, b⟩)
  /-- And so is `pi`. -/
  pi : env.lookup "pi" = some (.value (.leaf (.number Env.pi)))
  /-- No other name stands for a procedure. -/
  procedures : ∀ name p, env.lookup name = some (.procedure p) → ∃ b : Builtin, b.name = name
  /-- The names of the special forms are free. -/
  reserved : ∀ form : SpecialForm, env.contains form.name = false
  /-- All other names can be spelled. -/
  names : ∀ name, env.contains name = true → (∃ b : Builtin, b.name = name) ∨ name = "pi" ∨
    IsName name
  /-- All values are plain. -/
  values : ∀ name e, env.lookup name = some (.value e) → e.Plain

namespace Env

theorem sound_initial : initial.Sound where
  builtins b := by cases b <;> rfl
  pi := rfl
  procedures name p h := by
    rcases initial_lookup_inv h with ⟨-, hbinding⟩ | ⟨b, hb, -⟩
    · cases hbinding
    · exact ⟨b, hb⟩
  reserved form := by cases form <;> rfl
  names name h := by
    obtain ⟨binding, hbinding⟩ := contains_eq_true_iff.mp h
    rcases initial_lookup_inv hbinding with ⟨rfl, -⟩ | ⟨b, hb, -⟩
    · exact Or.inr (Or.inl rfl)
    · exact Or.inl ⟨b, hb⟩
  values name e h := by
    rcases initial_lookup_inv h with ⟨-, hbinding⟩ | ⟨b, -, hbinding⟩
    · cases hbinding
      exact .number pi
    · cases hbinding

/-- A scope stays sound if a name that can be spelled is bound to a value, unless it is the name of
a built-in or of a special form, or `pi`. -/
theorem Sound.insert {env : Env} {name : String} {value : Expr} (h : env.Sound)
    (hbuiltin : ∀ b : Builtin, b.name ≠ name) (hpi : "pi" ≠ name)
    (hform : ∀ form : SpecialForm, form.name ≠ name) (hname : IsName name) (hvalue : value.Plain) :
    (env.insert name (.value value)).Sound where
  builtins b := by rw [lookup_insert, if_neg (hbuiltin b), h.builtins b]
  pi := by rw [lookup_insert, if_neg hpi, h.pi]
  procedures other p hother := by
    rw [lookup_insert] at hother
    split at hother
    · cases hother
    · exact h.procedures other p hother
  reserved form := by
    rw [contains_eq_false_iff, lookup_insert, if_neg (hform form)]
    exact contains_eq_false_iff.mp (h.reserved form)
  names other hother := by
    rcases contains_insert.mp hother with rfl | hold
    · exact Or.inr (Or.inr hname)
    · exact h.names other hold
  values other e hother := by
    rw [lookup_insert] at hother
    split at hother
    · cases hother
      exact hvalue
    · exact h.values other e hother

end Env

/-! ### Computations -/

/-- What a record may tell of values: no symbol goes to a procedure, and a name is bound to a
value. -/
def Record.Plain : Record → Prop
  | applying _ args => ∀ arg ∈ args, arg.type ≠ .symbol
  | defining _ value => value.Plain
  | _ => True

/-- What a computation may leave: a sound scope, a good value if it gives one, and records of
values only. -/
structure Outcome.Sound {α : Type} (good : α → Prop) (outcome : Outcome α) : Prop where
  /-- The scope is sound, also after a failure. -/
  env : outcome.env.Sound
  /-- A value is good. -/
  result : ∀ a, outcome.result = .ok a → good a
  /-- The records tell of values. -/
  records : ∀ record ∈ outcome.records, record.Plain

/-- A computation that keeps scopes sound and gives good values in them. -/
def Eval.Sound {α : Type} (good : α → Prop) (computation : Eval α) : Prop :=
  ∀ env, env.Sound → (computation.run env).Sound good

namespace Outcome.Sound

variable {α : Type} {good : α → Prop} {env : Env}

theorem ok (henv : env.Sound) {a : α} (ha : good a) {records : List Record}
    (hrecords : ∀ record ∈ records, record.Plain) :
    (⟨.ok a, env, records⟩ : Outcome α).Sound good where
  env := henv
  result _ hb := Except.ok.inj hb ▸ ha
  records := hrecords

theorem error (henv : env.Sound) {cause : EvalError} {records : List Record}
    (hrecords : ∀ record ∈ records, record.Plain) :
    (⟨.error cause, env, records⟩ : Outcome α).Sound good where
  env := henv
  result _ hb := by cases hb
  records := hrecords

theorem after {outcome : Outcome α} (h : outcome.Sound good) {records : List Record}
    (hrecords : ∀ record ∈ records, record.Plain) : (outcome.after records).Sound good where
  env := h.env
  result := h.result
  records record hrecord := by
    rcases List.mem_append.mp hrecord with hfront | hback
    · exact hrecords record hfront
    · exact h.records record hback

end Outcome.Sound

/-- What a built-in gives is no symbol. -/
theorem Builtin.type_ne_symbol_of_apply {b : Builtin} {args : List Atom} {atom : Atom}
    (h : b.apply args = .ok atom) : atom.type ≠ .symbol := by
  have hmap {γ : Type} {f : γ → Atom} (hf : ∀ c, (f c).type ≠ .symbol) (value : Except Refusal γ)
      (hvalue : value.map f = .ok atom) : atom.type ≠ .symbol := by
    cases value with
    | error e => cases hvalue
    | ok c =>
        cases hvalue
        exact hf c
  unfold apply at h
  split at h
  · exact hmap (by simp [Atom.type]) _ h
  · exact hmap (by simp [Atom.type]) _ h
  · exact hmap (by simp [Atom.type]) _ h

/-- What a call gives is a value. -/
theorem Env.plain_of_call {env : Env} {name : String} {args : List Atom} {e : Expr}
    (h : env.call name args = .ok e) : e.Plain := by
  unfold call at h
  split at h
  · cases h
  · cases h
  · next p _ =>
      rw [Procedure.call] at h
      rcases hatom : p.builtin.apply args with refusal | atom
      · rw [hatom] at h
        cases h
      · rw [hatom] at h
        cases h
        exact .leaf (Builtin.type_ne_symbol_of_apply hatom)

namespace Eval.Sound

variable {α β : Type} {good : α → Prop} {good' : β → Prop}

theorem pure {a : α} (ha : good a) : (pure a : Eval α).Sound good :=
  fun _ henv => .ok henv ha (by simp)

theorem fail (error : EvalError) : (Eval.fail error : Eval α).Sound good :=
  fun _ henv => .error henv (by simp)

theorem note (record : Record) (h : record.Plain) : (Eval.note record).Sound fun _ => True :=
  fun _ henv => .ok henv trivial (by simpa using h)

/-- A sequence is sound if its second part is, for the good values of the first. -/
theorem bind {first : Eval α} {next : α → Eval β} (hfirst : first.Sound good)
    (hnext : ∀ a, good a → (next a).Sound good') : (first >>= next).Sound good' := by
  intro env henv
  have hsound := hfirst env henv
  rw [run_bind]
  rcases h : first.run env with ⟨error | a, mid, records⟩
  · rw [h] at hsound
    exact .error hsound.env hsound.records
  · rw [h] at hsound
    exact (hnext a (hsound.result a rfl) mid hsound.env).after hsound.records

theorem map {f : α → β} {first : Eval α} (hfirst : first.Sound good)
    (hf : ∀ a, good a → good' (f a)) : (f <$> first).Sound good' := by
  rw [← bind_pure_comp]
  exact hfirst.bind fun a ha => pure (hf a ha)

/-- A call by name gives a value, or resets the scope. -/
theorem call (name : String) (args : List Atom) : (Eval.call name args).Sound Expr.Plain := by
  intro env henv
  rw [call_run]
  split
  · next e h => exact .ok henv (Env.plain_of_call h) (by simp)
  · exact .error Env.sound_initial (by simp [Record.Plain])

/-- A symbol gives the value that it stands for, or what it computes from atoms that are no
symbols. -/
theorem callSymbol (name : String) {args : Eval (List Atom)}
    (hargs : args.Sound fun args => ∀ arg ∈ args, arg.type ≠ .symbol) :
    (Expr.callSymbol name args).Sound Expr.Plain := by
  intro env henv
  rcases hlookup : env.lookup name with _ | e | p
  · rw [Expr.run_callSymbol_of_unbound hlookup]
    exact .error henv (by simp)
  · rw [Expr.run_callSymbol_of_value hlookup]
    exact .ok henv (henv.values name e hlookup) (by simp)
  · rw [Expr.run_callSymbol_of_procedure hlookup]
    refine hargs.bind (fun args hargs => ?_) env henv
    exact (note (.applying name args) hargs).bind fun _ _ => call name args

/-- A definition binds a name that can be spelled. That it is none of the built-ins, nor `pi`, is
known from the scope in which the definition begins: these are bound there, and the name is
free. -/
theorem defineSymbol {name : String} {body : Eval Expr} (hbody : body.Sound Expr.Plain)
    (hname : IsName name) : (Expr.defineSymbol name body).Sound Expr.Plain := by
  intro env henv
  rcases Expr.taken_or_free env name with htaken | ⟨hfree, hopen⟩
  · rw [Expr.run_defineSymbol_of_taken htaken]
    exact .error Env.sound_initial (by simp [Record.Plain])
  have hne {other : String} {binding : Binding} (h : env.lookup other = some binding) :
      other ≠ name := by
    rintro rfl
    rw [Env.contains_of_lookup h] at hfree
    cases hfree
  have hsound := hbody env henv
  rcases h : body.run env with ⟨error | value, mid, records⟩
  · rw [h] at hsound
    rw [Expr.run_defineSymbol_of_error hfree hopen h]
    exact .error hsound.env hsound.records
  · rw [h] at hsound
    rw [Expr.run_defineSymbol_of_ok hfree hopen h]
    have hvalue := hsound.result value rfl
    have hstored := hsound.env.insert (fun b => hne (henv.builtins b)) (hne henv.pi)
      (SpecialForm.ofName?_eq_none_iff.mp hopen) hname hvalue
    refine .ok hstored hvalue fun record hrecord => ?_
    rcases List.mem_append.mp hrecord with hbody | hdefining
    · exact hsound.records record hbody
    · obtain rfl := List.mem_singleton.mp hdefining
      exact hvalue

end Eval.Sound

/-! ### Evaluations -/

namespace Expr

/-- The parts of an evaluation keep scopes sound and give plain values, and atoms that are no
symbols for operands. -/
theorem upholds_sound {e : Expr} (h : e.Spelled) :
    e.Upholds Plain (·.Sound Plain) (·.Sound fun args => ∀ arg ∈ args, arg.type ≠ .symbol) where
  empty := .empty
  number := .number
  boolean := .boolean
  pure := .pure
  fail error _ := .fail error
  note e _ hnext := (Eval.Sound.note (.evaluating e) trivial).bind fun _ _ => hnext
  bind := .bind
  nil := .pure (by simp)
  cons hv hhead hrest :=
    hrest.map fun args hargs => List.forall_mem_cons.mpr ⟨hv.type_ne_symbol hhead, hargs⟩
  missing error _ := .fail error
  operand := .bind
  call name _ _ _ hargs := .callSymbol name hargs
  define name body hwithin hbody :=
    hbody.defineSymbol (h name [] (Within.of_mem (List.mem_cons_self ..) hwithin))

/-- **The evaluation of an expression keeps scopes sound and gives a value**, if the names in the
expression can be spelled. -/
theorem eval_sound {e : Expr} (h : e.Spelled) : e.eval.Sound Plain :=
  (upholds_sound h).eval

end Expr

/-! ### Sessions -/

/-- What can be asked of a session. -/
inductive Call where
  /-- To take up a program from a text. -/
  | parse (text : String)
  /-- To take up a program from bytes. -/
  | load (bytes : ByteArray)
  /-- To evaluate the program, and to tell of a failure. -/
  | tryEval
  /-- To evaluate the program, and never to fail. -/
  | eval

namespace Session

/-- The session after a call. What cannot be read leaves it as it is. -/
def answer (s : Session) : Call → Session
  | .parse text => (s.parse text).toOption.getD s
  | .load bytes => (s.load bytes).toOption.getD s
  | .tryEval => s.tryEval.session
  | .eval => s.eval.session

/-- The session after some calls, from the beginning. -/
def reached (calls : List Call) : Session := calls.foldl answer initial

/-- What holds of every session: its scope is sound, and the names in its program can be
spelled. -/
structure Sound (s : Session) : Prop where
  /-- The scope is sound. -/
  env : s.env.Sound
  /-- The names in the program can be spelled. -/
  program : s.program.Spelled

theorem sound_initial : initial.Sound where
  env := Env.sound_initial
  program name children h := by
    cases h with
    | child hmem => cases hmem

section

variable {s s' : Session}

theorem Sound.parse (h : s.Sound) {text : String} (hparse : s.parse text = .ok s') : s'.Sound := by
  rw [Session.parse] at hparse
  split at hparse
  · cases hparse
  · next program hprogram =>
      cases hparse
      exact ⟨h.env, Expr.spelled_of_ofText hprogram⟩

theorem Sound.load (h : s.Sound) {bytes : ByteArray} (hload : s.load bytes = .ok s') :
    s'.Sound := by
  rw [Session.load] at hload
  split at hload
  · cases hload
  split at hload
  · cases hload
  · next hparse =>
      cases hload
      exact h.parse hparse

/-- An evaluation of the program of a sound session is sound. -/
theorem Sound.run (h : s.Sound) : (s.program.eval.run s.env).Sound Expr.Plain :=
  Expr.eval_sound h.program s.env h.env

theorem eval_session (s : Session) : s.eval.session = s.tryEval.session := by
  rw [eval]
  split <;> rfl

/-- Without its failure, too, an evaluation gives a value: the empty expression if it fails. -/
theorem Sound.plain_eval (h : s.Sound) :
    s.eval.result.Plain ∧ ∀ record ∈ s.eval.records, record.Plain := by
  rw [Session.eval]
  split
  · next e hresult => exact ⟨h.run.result e hresult, h.run.records⟩
  · refine ⟨.empty, fun record hrecord => ?_⟩
    rcases List.mem_append.mp hrecord with hrun | hfailure
    · exact h.run.records record hrun
    · obtain rfl := List.mem_singleton.mp hfailure
      trivial

/-- **Every call keeps a session sound.** -/
theorem Sound.answer (h : s.Sound) (call : Call) : (s.answer call).Sound := by
  cases call with
  | parse text =>
      rw [Session.answer]
      rcases hparse : s.parse text with e | s'
      · exact h
      · exact h.parse hparse
  | load bytes =>
      rw [Session.answer]
      rcases hload : s.load bytes with e | s'
      · exact h
      · exact h.load hload
  | tryEval => exact ⟨h.run.env, h.program⟩
  | eval =>
      rw [Session.answer, eval_session]
      exact ⟨h.run.env, h.program⟩

/-- Every session that is reached is sound. -/
theorem sound_reached (calls : List Call) : (reached calls).Sound :=
  List.foldlRecOn calls Session.answer sound_initial fun _ h call _ => h.answer call

end

/-- **What a session holds and gives**, however it came about. Its scope is sound: the built-ins
and `pi` are there, no other procedure and no special form is, every other name can be spelled,
and all stored values are plain. Whatever the program is, an evaluation gives a plain value if it
gives one, stores plain values, and hands no symbol to a procedure. And plain values are alike at
the root if they are alike as trees. -/
theorem reached_holds (calls : List Call) :
    (reached calls).env.Sound ∧
    (∀ e, (reached calls).tryEval.result = .ok e → e.Plain) ∧
    (∀ record ∈ (reached calls).tryEval.records, record.Plain) ∧
    ((reached calls).eval.result.Plain ∧ ∀ record ∈ (reached calls).eval.records, record.Plain) ∧
    ∀ a b : Expr, a.Plain → b.Plain → a.alike b = a.deepAlike b :=
  ⟨(sound_reached calls).env, (sound_reached calls).run.result, (sound_reached calls).run.records,
    (sound_reached calls).plain_eval, fun _ _ ha hb => ha.alike_eq_deepAlike hb⟩

end Session

end FlatLisp
