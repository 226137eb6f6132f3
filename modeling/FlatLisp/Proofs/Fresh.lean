import FlatLisp.Proofs.Blame
import FlatLisp.Proofs.Likeness

/-!
# Scopes Equal to the One of the Beginning

The equality of scopes is a loose one. Values are compared at the root, so that their children are
not looked at, and procedures by their names, so that what they compute is not. In general two
equal scopes may well behave differently.

Beside the scope of the beginning they may not. Its one value is a lone number other than zero,
which is equal to nothing but itself. And a scope that came about by additions of values, resets and
evaluations is genuine: its procedures are built-ins under their own names, so that a procedure is
told by its name. So such a scope is equal to the one of the beginning only if every name stands for
the same in both.

Scopes in which every name stands for the same cannot be told apart. They are asked the same things
and give the same answers, and after the same changes they are again scopes of this sort, so that
this goes on through any sequence of requests.

## Main definitions

* `Env.Same`: every name stands for the same in two scopes.
* `Env.Request`, `Env.replies`: what can be asked of a scope, and the answers to some requests.

## Main results

* `Env.alike_iff`: equality of scopes, name by name.
* `Env.Same.replies_eq`: scopes in which every name stands for the same give the same answers.
* `Env.Genuine.alike_initial_iff`: only the scope of the beginning is equal to itself.
* `Env.alike_initial_iff_replies`: equality with the scope of the beginning is exact.
-/

namespace FlatLisp

/-- What is equal to a lone atom at the root is a lone atom. -/
theorem Expr.eq_leaf_of_alike {e : Expr} {atom : Atom} (h : e.alike (leaf atom) = true) :
    ∃ other, e = leaf other ∧ other.alike atom = true := by
  obtain ⟨head, children⟩ := e
  rw [alike, Bool.and_eq_true, headsAlike_iff] at h
  obtain ⟨hhead, hchildren⟩ := h
  obtain rfl := List.length_eq_zero_iff.mp (eq_of_beq hchildren)
  cases hhead with
  | some hatom => exact ⟨_, rfl, hatom⟩

/-- A built-in is told by its name. -/
theorem Builtin.eq_of_name_eq {b c : Builtin} (h : b.name = c.name) : b = c := by
  revert h
  cases b <;> cases c <;> decide

namespace Env

variable {a b : Env}

/-! ### Equality of scopes -/

/-- Scopes are equal if every name stands for equals in both, or for nothing. -/
theorem alike_iff :
    a.alike b = true ↔
      ∀ name, Option.Rel (fun x y => x.alike y = true) (a.lookup name) (b.lookup name) := by
  have hbound {name : String} : name ∈ a.names ++ b.names ↔
      ¬(a.lookup name = none ∧ b.lookup name = none) := by
    rw [List.mem_append, mem_names, mem_names, ← contains_eq_false_iff, ← contains_eq_false_iff]
    cases a.contains name <;> cases b.contains name <;> simp
  simp only [alike, List.all_eq_true, hbound]
  refine forall_congr' fun name => ?_
  rcases a.lookup name with _ | x <;> rcases b.lookup name with _ | y
  · exact iff_of_true (fun h => absurd ⟨rfl, rfl⟩ h) .none
  · exact iff_of_false (fun h => Bool.false_ne_true (h nofun)) nofun
  · exact iff_of_false (fun h => Bool.false_ne_true (h nofun)) nofun
  · constructor
    · exact fun h => .some (h nofun)
    · rintro ⟨h⟩ -
      exact h

/-- Only the number `pi` is equal to it. -/
theorem alike_pi_iff {x : Binding} :
    x.alike (.value (.leaf (.number pi))) = true ↔ x = .value (.leaf (.number pi)) := by
  constructor
  · intro h
    cases x with
    | procedure p => cases h
    | value e =>
        obtain ⟨atom, rfl, hatom⟩ := Expr.eq_leaf_of_alike h
        cases atom with
        | number x => rw [Double.eq_of_beq_of_ne_zero hatom (by decide) (by decide +kernel)]
        | boolean b => cases hatom
        | symbol name => cases hatom
  · rintro rfl
    decide +kernel

/-- In a genuine scope, what is equal to a built-in under the name of the built-in is the
built-in. -/
theorem Genuine.alike_builtin_iff {env : Env} (h : env.Genuine) {builtin : Builtin} {x : Binding}
    (hlookup : env.lookup builtin.name = some x) :
    x.alike (.procedure ⟨builtin.name, builtin⟩) = true ↔
      x = .procedure ⟨builtin.name, builtin⟩ := by
  constructor
  · intro hlike
    cases x with
    | value e => cases hlike
    | procedure p =>
        obtain ⟨other, hname, rfl⟩ := h _ p hlookup
        rw [Builtin.eq_of_name_eq hname]
  · rintro rfl
    exact beq_self_eq_true builtin.name

/-- **Only the scope of the beginning is equal to itself**, among genuine scopes. -/
theorem Genuine.alike_initial_iff {env : Env} (h : env.Genuine) :
    env.alike initial = true ↔ ∀ name, env.lookup name = initial.lookup name := by
  rw [alike_iff]
  refine forall_congr' fun name => optionRel_iff_eq fun x y hx hy => ?_
  rcases initial_lookup_inv hy with ⟨-, rfl⟩ | ⟨builtin, rfl, rfl⟩
  · exact alike_pi_iff
  · exact h.alike_builtin_iff hx

/-! ### Requests -/

/-- Every name stands for the same in two scopes, or is free in both. -/
def Same (a b : Env) : Prop := ∀ name, a.lookup name = b.lookup name

/-- What can be asked of a scope. -/
inductive Request where
  /-- To change. -/
  | change (c : Change)
  /-- Whether a name is bound. -/
  | contains (name : String)
  /-- Whether a name stands for a procedure. -/
  | isProcedure (name : String)
  /-- The expression that a name stands for. -/
  | value (name : String)
  /-- To call the procedure that a name stands for. -/
  | call (name : String) (args : List Atom)
  /-- The names that are bound. -/
  | names
  /-- Whether it is equal to a scope. -/
  | alike (other : Env)

/-- What a scope answers. -/
inductive Answer where
  /-- It has changed. -/
  | changed
  /-- It has changed by an evaluation, with this result and these records. -/
  | evaluated (result : Except EvalError Expr) (records : List Record)
  /-- Whether it is so. -/
  | truth (value : Bool)
  /-- An expression, or none. -/
  | value (e : Option Expr)
  /-- The value of a call, or why it has none. -/
  | called (result : Except EvalError Expr)
  /-- Some names. -/
  | names (names : List String)

/-- The answer to a request. -/
def answer (env : Env) : Request → Answer
  | .change (.add _ _) => .changed
  | .change .reset => .changed
  | .change (.evaluate e) => .evaluated (e.eval.run env).result (e.eval.run env).records
  | .contains name => .truth (env.contains name)
  | .isProcedure name => .truth (env.procedure? name).isSome
  | .value name => .value (env.value? name)
  | .call name args => .called (env.call name args)
  | .names => .names env.names
  | .alike other => .truth (env.alike other)

/-- The scope after a request. -/
def after (env : Env) : Request → Env
  | .change c => env.change c
  | _ => env

/-- The answers to some requests, one after the other. -/
def replies (env : Env) : List Request → List Answer
  | [] => []
  | request :: rest => env.answer request :: (env.after request).replies rest

namespace Same

/-- The names that are bound are listed in the same order. -/
theorem names_eq (h : a.Same b) : a.names = b.names := by
  have hperm : (a.bindings.map Prod.fst).Perm (b.bindings.map Prod.fst) := by
    refine (List.perm_ext_iff_of_nodup a.nodup b.nodup).mpr fun name => ?_
    rw [mem_map_fst_iff_isSome_lookup, mem_map_fst_iff_isSome_lookup]
    exact iff_of_eq (congrArg (·.isSome = true) (h name))
  have hsorted (names : List String) := List.pairwise_mergeSort' (· ≤ ·) names
  have hsame : a.names.Perm b.names :=
    (List.mergeSort_perm _ _).trans (hperm.trans (List.mergeSort_perm _ _).symm)
  exact hsame.eq_of_pairwise' (hsorted _) (hsorted _)

/-- An evaluation gives the same in both, and leaves scopes of this sort. -/
theorem run (h : a.Same b) (e : Expr) :
    (e.eval.run a).result = (e.eval.run b).result ∧
      (e.eval.run a).records = (e.eval.run b).records ∧
      (e.eval.run a).env.Same (e.eval.run b).env := by
  have hparallel := e.eval_looksAt a b fun name _ => h name
  refine ⟨hparallel.result, hparallel.records, fun name => ?_⟩
  -- Either both runs have added the same bindings, or both have gone back to the beginning.
  rcases hresets : (e.eval.run a).resets with _ | _
  · obtain ⟨new, hnew, hnew'⟩ := hparallel.extended hresets
    rw [hnew.lookup, hnew'.lookup, h name]
  · obtain ⟨hinitial, hinitial'⟩ := hparallel.reset hresets
    rw [hinitial, hinitial']

theorem change (h : a.Same b) (c : Change) : (a.change c).Same (b.change c) := by
  intro name
  cases c with
  | add other value =>
      show (a.insert _ _).lookup name = (b.insert _ _).lookup name
      rw [lookup_insert, lookup_insert, h name]
  | reset => rfl
  | evaluate e => exact (h.run e).2.2 name

/-- One request is answered in the same way. -/
theorem answer_eq (h : a.Same b) (request : Request) : a.answer request = b.answer request := by
  cases request with
  | change c =>
      cases c with
      | add => rfl
      | reset => rfl
      | evaluate e => rw [answer, answer, (h.run e).1, (h.run e).2.1]
  | contains name => rw [answer, answer, contains, contains, h name]
  | isProcedure name => rw [answer, answer, procedure?, procedure?, h name]
  | value name => rw [answer, answer, value?, value?, h name]
  | call name args => rw [answer, answer, call_congr (h name)]
  | names => rw [answer, answer, h.names_eq]
  | alike other =>
      have hlike : a.alike other = true ↔ b.alike other = true := by
        simp only [alike_iff, h _]
      rw [answer, answer, Bool.eq_iff_iff.mpr hlike]

theorem after (h : a.Same b) (request : Request) : (a.after request).Same (b.after request) := by
  cases request with
  | change c => exact h.change c
  | _ => exact h

/-- **Scopes in which every name stands for the same cannot be told apart**, by any requests. -/
theorem replies_eq (h : a.Same b) (requests : List Request) :
    a.replies requests = b.replies requests := by
  induction requests generalizing a b with
  | nil => rfl
  | cons request rest ih => rw [replies, replies, h.answer_eq, ih (h.after request)]

end Same

/-- **Equality with the scope of the beginning is exact**, for a scope that came about by any
changes. It is equal to the one of the beginning if and only if the same names are bound in both,
to the same values and the same procedures, and if and only if it cannot be told apart from it by
any sequence of requests. -/
theorem alike_initial_iff_replies (changes : List Change) :
    ((reached changes).alike initial = true ↔
      ∀ name, (reached changes).lookup name = initial.lookup name) ∧
    ((reached changes).alike initial = true ↔
      ∀ requests, (reached changes).replies requests = initial.replies requests) := by
  have hgenuine := (genuine_reached changes).alike_initial_iff
  refine ⟨hgenuine, fun h requests => Same.replies_eq (hgenuine.mp h) requests, fun h => ?_⟩
  -- To be asked for equality with the scope of the beginning is a request, too.
  have hinitial : initial.alike initial = true := genuine_initial.alike_initial_iff.mpr fun _ => rfl
  obtain ⟨hlike, -⟩ := List.cons.inj (h [.alike initial])
  rw [Answer.truth.inj hlike, hinitial]

end Env

end FlatLisp
