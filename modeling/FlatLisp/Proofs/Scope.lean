import FlatLisp.Env
import Mathlib.Order.Defs.PartialOrder

/-!
# The Order of Scopes

One scope is below another if every binding of the first is a binding of the second. The order
sees a scope through its lookups only, so that two scopes below each other are the same table,
though perhaps listed in another order. What the larger one has more is a frame: bindings for
names that are free in the smaller one.

## Main definitions

* `Env.Framed`: a scope is another one beside a frame.

## Main results

* `Env.contains_mono`: what is bound stays bound in a larger scope.
* `Env.le_insert`: a binding for a free name makes a scope larger.
* `Env.framed_of_le`: a larger scope is the smaller one beside a frame.
-/

namespace FlatLisp

namespace Env

variable {env large : Env} {name other : String} {binding : Binding}

/-- A name is bound if it stands for something. -/
theorem contains_eq_true_iff :
    env.contains name = true ↔ ∃ binding, env.lookup name = some binding := by
  rw [contains, Option.isSome_iff_exists]

/-- A name is free if it stands for nothing. -/
theorem contains_eq_false_iff : env.contains name = false ↔ env.lookup name = none := by
  rw [contains, Option.isSome_eq_false_iff, Option.isNone_iff_eq_none]

theorem contains_of_lookup (h : env.lookup name = some binding) : env.contains name = true :=
  contains_eq_true_iff.mpr ⟨binding, h⟩

/-- A new binding binds its name, and no other name is touched. -/
theorem contains_insert :
    (env.insert name binding).contains other = true ↔ other = name ∨ env.contains other = true := by
  rw [contains, lookup_insert]
  split
  · next h => simp [h]
  · next h => simp [h, contains]

/-- One scope is below another if every binding of the first is one of the second. -/
instance : LE Env :=
  ⟨fun env large =>
    ∀ name binding, env.lookup name = some binding → large.lookup name = some binding⟩

instance : Preorder Env where
  le_refl _ _ _ h := h
  le_trans _ _ _ h₁ h₂ name binding h := h₂ name binding (h₁ name binding h)

/-- What is bound stays bound in a larger scope. -/
theorem contains_mono (h : env ≤ large) (hname : env.contains name = true) :
    large.contains name = true := by
  obtain ⟨binding, hbinding⟩ := contains_eq_true_iff.mp hname
  exact contains_of_lookup (h name binding hbinding)

/-- A binding for a free name makes a scope larger. -/
theorem le_insert (hle : env ≤ large) (hfree : env.contains name = false) :
    env ≤ large.insert name binding := by
  intro other found hother
  have hne : other ≠ name := by
    rintro rfl
    exact absurd (hfree.symm.trans (contains_of_lookup hother)) Bool.false_ne_true
  rw [lookup_insert, if_neg hne]
  exact hle other found hother

/-- Inversion of a lookup in the scope of the beginning: it finds `pi` or a built-in. -/
theorem initial_lookup_inv {name : String} {binding : Binding}
    (h : initial.lookup name = some binding) :
    (name = "pi" ∧ binding = .value (.leaf (.number pi))) ∨
      ∃ b : Builtin, b.name = name ∧ binding = .procedure ⟨b.name, b⟩ := by
  obtain ⟨front, back, htable, -⟩ := List.lookup_eq_some_iff.mp h
  have hentry : (name, binding) ∈ initial.bindings := htable ▸ by simp
  rcases List.mem_cons.mp hentry with hpi | hbuiltin
  · obtain ⟨rfl, rfl⟩ := Prod.mk.inj hpi
    exact Or.inl ⟨rfl, rfl⟩
  · obtain ⟨b, -, hb⟩ := List.mem_map.mp hbuiltin
    obtain ⟨rfl, rfl⟩ := Prod.mk.inj hb
    exact Or.inr ⟨b, rfl, rfl⟩

/-- A call depends on what its own name stands for only. -/
theorem call_congr (h : env.lookup name = large.lookup name) (args : List Atom) :
    env.call name args = large.call name args := by
  rw [call, call, h]

end Env

/-! ### Frames -/

/-- A name that is bound, and that is free in a smaller scope. -/
def Env.Beyond (large env : Env) (name : String) : Prop :=
  large.contains name = true ∧ env.contains name = false

/-- A scope is another one beside a frame: further bindings, for names that are free there. -/
structure Env.Framed (frame : String → Option Binding) (env large : Env) : Prop where
  apart : ∀ name, frame name ≠ none → env.contains name = false
  lookup : ∀ name, large.lookup name = (env.lookup name).or (frame name)

namespace Env

variable {frame : String → Option Binding} {env large : Env} {name : String}

/-- The bindings that a larger scope has for names that are free in a smaller one. -/
def beyond (large env : Env) (name : String) : Option Binding :=
  if env.contains name then none else large.lookup name

theorem beyond_ne_none_iff : large.beyond env name ≠ none ↔ large.Beyond env name := by
  unfold beyond Beyond
  rcases hname : env.contains name with _ | _
  · simp [contains, Option.isSome_iff_ne_none]
  · simp

theorem beyond_eq_none_iff : large.beyond env name = none ↔ ¬large.Beyond env name := by
  rw [← beyond_ne_none_iff, ne_eq, Classical.not_not]

/-- A larger scope is the smaller one beside the bindings for names that are free there. -/
theorem framed_of_le (h : env ≤ large) : Framed (large.beyond env) env large := by
  refine ⟨fun name hframe => (beyond_ne_none_iff.mp hframe).2, fun name => ?_⟩
  rcases hname : env.lookup name with _ | binding
  · have hfree := contains_eq_false_iff.mpr hname
    rw [Option.none_or, beyond, hfree, if_neg (by simp)]
  · rw [h name binding hname, Option.some_or]

/-- What is bound beside the frame is bound to the same in the larger scope. -/
theorem Framed.lookup_of_some (h : Framed frame env large) {binding : Binding}
    (hname : env.lookup name = some binding) : large.lookup name = some binding := by
  rw [h.lookup, hname]
  rfl

/-- Outside the frame the two scopes are the same. -/
theorem Framed.lookup_of_none (h : Framed frame env large) (hname : frame name = none) :
    large.lookup name = env.lookup name := by
  rw [h.lookup, hname, Option.or_none]

/-- In the frame the larger scope has the binding of the frame. -/
theorem Framed.lookup_of_frame (h : Framed frame env large) (hname : frame name ≠ none) :
    large.lookup name = frame name := by
  have hfree := contains_eq_false_iff.mp (h.apart name hname)
  rw [h.lookup, hfree, Option.none_or]

/-- A binding for a name outside the frame is added to both scopes. -/
theorem Framed.insert (h : Framed frame env large) (hname : frame name = none)
    (binding : Binding) : Framed frame (env.insert name binding) (large.insert name binding) := by
  refine ⟨fun other hother => ?_, fun other => ?_⟩
  · have hne : other ≠ name := by
      rintro rfl
      exact hother hname
    have hfree := contains_eq_false_iff.mp (h.apart other hother)
    rw [contains_eq_false_iff, lookup_insert, if_neg hne]
    exact hfree
  · rw [lookup_insert, lookup_insert]
    by_cases heq : other = name
    · rw [if_pos heq, if_pos heq]
      rfl
    · rw [if_neg heq, if_neg heq]
      exact h.lookup other

/-- A scope is itself beside no bindings. -/
theorem Framed.refl (env : Env) : Framed (fun _ => none) env env where
  apart _ h := absurd rfl h
  lookup _ := Option.or_none.symm

/-- Frames add up: bindings beside bindings. -/
theorem Framed.trans {later : String → Option Binding} {last : Env} (h : Framed frame env large)
    (hlater : Framed later large last) :
    Framed (fun name => (frame name).or (later name)) env last where
  apart name hname := by
    rcases hframe : frame name with _ | binding
    · rw [hframe, Option.none_or] at hname
      have hfree := contains_eq_false_iff.mp (hlater.apart name hname)
      rw [h.lookup, hframe, Option.or_none] at hfree
      exact contains_eq_false_iff.mpr hfree
    · exact h.apart name (by simp [hframe])
  lookup name := by rw [hlater.lookup, h.lookup, Option.or_assoc]

/-- A binding for a name that is free in the smaller scope goes to the frame, and replaces what the
frame had for it. -/
theorem Framed.define (h : Framed frame env large) (hfree : env.contains name = false)
    (binding : Binding) :
    Framed (fun other => if other = name then some binding else frame other) env
      (large.insert name binding) where
  apart other hother := by
    split at hother
    · next heq => exact heq ▸ hfree
    · exact h.apart other hother
  lookup other := by
    rw [lookup_insert]
    split
    · next heq => rw [heq, contains_eq_false_iff.mp hfree, Option.none_or]
    · exact h.lookup other

end Env

end FlatLisp
