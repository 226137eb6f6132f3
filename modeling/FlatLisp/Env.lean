import FlatLisp.EvalError

/-!
# The Scope

There is one flat scope, a table of names. It begins with the built-ins and `pi`. Names are added
to it, and the one way to lose a name is to lose all that were added.

A scope is seen through `Env.lookup`. The order in which its bindings came shows nowhere:
where names are listed, they are sorted.

## Main definitions

* `Env.initial`, `Env.insert`: the scope at the beginning, and with one more binding.
* `Env.call`: calls a procedure by its name.
* `Env.alike`: equality of scopes as far as it can be observed at the root of each value.

## Main results

* `Env.lookup_insert`: what a new binding changes.
* `Env.mem_names`: the names are those that a lookup finds.
-/

namespace FlatLisp

/-- A built-in under a name of its own, which is what tells two procedures apart. -/
structure Procedure where
  /-- The name. -/
  name : String
  /-- What it computes. -/
  builtin : Builtin
deriving DecidableEq, Repr

namespace Procedure

/-- The text of a procedure in a message for the programmer. -/
def inspect (p : Procedure) : String :=
  "Primitive(" ++ p.name ++ ")"

/-- Equality of procedures, by their names alone. -/
def alike (p q : Procedure) : Bool := p.name == q.name

/-- The value of a call: an expression of one atom. -/
def call (p : Procedure) (args : List Atom) : Except Refusal Expr :=
  (p.builtin.apply args).map Expr.leaf

end Procedure

/-- What a name stands for. -/
inductive Binding where
  /-- A stored expression. -/
  | value (e : Expr)
  /-- A procedure. -/
  | procedure (p : Procedure)

/-- Equality of bindings: values at the root, procedures by name. -/
def Binding.alike : Binding → Binding → Bool
  | value a, value b => a.alike b
  | procedure p, procedure q => p.alike q
  | _, _ => false

/-- A scope: a table of names, each bound once. -/
structure Env where
  /-- The names and what they stand for. -/
  bindings : List (String × Binding)
  /-- No name is bound twice. -/
  nodup : (bindings.map Prod.fst).Nodup

namespace Env

/-- What a name stands for. -/
def lookup (env : Env) (name : String) : Option Binding :=
  env.bindings.lookup name

/-- The names that are bound, in ascending order. -/
def names (env : Env) : List String :=
  (env.bindings.map Prod.fst).mergeSort

/-- Whether a name is bound. -/
def contains (env : Env) (name : String) : Bool :=
  (env.lookup name).isSome

/-- The expression that a name stands for, if it stands for one. -/
def value? (env : Env) (name : String) : Option Expr :=
  match env.lookup name with
  | some (.value e) => some e
  | _ => none

/-- The procedure that a name stands for, if it stands for one. -/
def procedure? (env : Env) (name : String) : Option Procedure :=
  match env.lookup name with
  | some (.procedure p) => some p
  | _ => none

/-- The names that stand for expressions, in ascending order, with these. -/
def values (env : Env) : List (String × Expr) :=
  env.names.filterMap fun name => (env.value? name).map fun e => (name, e)

/-- The scope in which `name` stands for `binding` and all else is as before. -/
def insert (env : Env) (name : String) (binding : Binding) : Env where
  bindings := (name, binding) :: env.bindings.filter fun entry => entry.1 != name
  nodup := by
    rw [List.map_cons, List.nodup_cons]
    refine ⟨by simp, env.nodup.sublist ?_⟩
    exact (List.filter_sublist).map Prod.fst

/-- Half the circumference of the unit circle. -/
def pi : Float := 3.141592653589793

/-- The scope at the beginning: the built-ins under their names, and `pi`. -/
def initial : Env where
  bindings := ("pi", .value (.leaf (.number pi))) ::
    Builtin.all.map fun b => (b.name, .procedure ⟨b.name, b⟩)
  nodup := by decide

/-- Calls a procedure by its name. -/
def call (env : Env) (name : String) (args : List Atom) : Except EvalError Expr :=
  match env.lookup name with
  | none => .error (.unknownSymbol name)
  | some (.value _) => .error (.malformed (.notProcedure name))
  | some (.procedure p) =>
    match p.call args with
    | .error cause => .error (.refused cause)
    | .ok e => .ok e

/-- Equality of scopes: the same names, with alike bindings. -/
def alike (a b : Env) : Bool :=
  (a.names ++ b.names).all fun name =>
    match a.lookup name, b.lookup name with
    | some x, some y => x.alike y
    | _, _ => false

/-! ### The table through its lookups -/

theorem mem_map_fst_iff_isSome_lookup {table : List (String × Binding)} {name : String} :
    name ∈ table.map Prod.fst ↔ (table.lookup name).isSome := by
  induction table with
  | nil => simp
  | cons entry rest ih =>
      rw [List.map_cons, List.mem_cons, List.lookup_cons, ih]
      by_cases h : name = entry.1
      · simp [h]
      · simp [h, beq_false_of_ne h]

/-- A bound name is one that is listed. -/
theorem mem_names {env : Env} {name : String} : name ∈ env.names ↔ env.contains name = true := by
  rw [names, List.mem_mergeSort, mem_map_fst_iff_isSome_lookup]
  rfl

theorem lookup_filter_ne (table : List (String × Binding)) {name other : String}
    (h : other ≠ name) :
    (table.filter fun entry => entry.1 != name).lookup other = table.lookup other := by
  induction table with
  | nil => rfl
  | cons entry rest ih =>
      by_cases he : entry.1 = name
      · rw [List.filter_cons_of_neg (by simp [he]), ih, List.lookup_cons,
          beq_false_of_ne (he ▸ h)]
      · rw [List.filter_cons_of_pos (by simp [he]), List.lookup_cons, List.lookup_cons, ih]

/-- A new binding is found under its name, and no other name is touched. -/
theorem lookup_insert (env : Env) (name : String) (binding : Binding) (other : String) :
    (env.insert name binding).lookup other =
      if other = name then some binding else env.lookup other := by
  unfold lookup insert
  rw [List.lookup_cons]
  split
  · next h => rw [if_pos (by simpa using h)]
  · next h =>
      have hne : other ≠ name := by simpa using h
      rw [if_neg hne, lookup_filter_ne _ hne]

end Env

end FlatLisp
