import FlatLisp.Builtin

/-!
# When a Built-In Refuses

A built-in looks at the number of its operands first and at their sorts after that. It refuses a
number that it does not take, and otherwise the first operand that is of another sort than it
takes.

## Main results

* `Builtin.operands_eq_error_iff`: the operand that is refused is the first of another sort.
* `Builtin.apply_eq_error_iff`: when a call is refused, and for what cause.
-/

namespace FlatLisp

namespace Atom

theorem boolean?_eq_none_iff {atom : Atom} : atom.boolean? = none ↔ atom.type ≠ .boolean := by
  cases atom <;> simp [boolean?, type]

theorem number?_eq_none_iff {atom : Atom} : atom.number? = none ↔ atom.type ≠ .number := by
  cases atom <;> simp [number?, type]

end Atom

namespace Builtin

variable {b : Builtin} {args : List Atom} {refusal : Refusal}

theorem map_eq_error_iff {α β : Type} {f : α → β} {value : Except Refusal α} :
    value.map f = .error refusal ↔ value = .error refusal := by
  cases value <;> simp [Except.map]

section

variable {α : Type} {sort? : Atom → Option α} {position : Nat} {arg : Atom}

theorem operands_cons_of_none (h : sort? arg = none) :
    b.operands sort? position (arg :: args) = .error (.type b position arg.type) := by
  rw [operands, h]

theorem operands_cons_of_some {a : α} (h : sort? arg = some a) :
    b.operands sort? position (arg :: args) =
      (b.operands sort? (position + 1) args).map (a :: ·) := by
  rw [operands, h]
  rcases b.operands sort? (position + 1) args with e | as <;> rfl

/-- Operands are refused at the first of them that is of another sort. -/
theorem operands_eq_error_iff :
    b.operands sort? position args = .error refusal ↔
      ∃ front arg back, args = front ++ arg :: back ∧ (∀ a ∈ front, sort? a ≠ none) ∧
        sort? arg = none ∧ refusal = .type b (position + front.length) arg.type := by
  constructor
  · intro h
    induction args generalizing position with
    | nil => cases h
    | cons arg args ih =>
        rcases hsort : sort? arg with _ | a
        · rw [operands_cons_of_none hsort] at h
          cases h
          exact ⟨[], arg, args, rfl, by simp, hsort, rfl⟩
        · rw [operands_cons_of_some hsort, map_eq_error_iff] at h
          obtain ⟨front, found, back, rfl, hfront, hfound, rfl⟩ := ih h
          have harg : sort? arg ≠ none := by simp [hsort]
          refine ⟨arg :: front, found, back, rfl, List.forall_mem_cons.mpr ⟨harg, hfront⟩,
            hfound, ?_⟩
          rw [List.length_cons, Nat.add_assoc, Nat.add_comm 1]
  · rintro ⟨front, arg, back, rfl, hfront, harg, rfl⟩
    induction front generalizing position with
    | nil => exact operands_cons_of_none harg
    | cons first front ih =>
        rw [List.forall_mem_cons] at hfront
        obtain ⟨a, ha⟩ := Option.ne_none_iff_exists'.mp hfront.1
        rw [List.cons_append, operands_cons_of_some ha, ih hfront.2, List.length_cons,
          Nat.add_assoc, Nat.add_comm 1]
        rfl

/-- Operands that are not refused are as many as were given. -/
theorem length_of_operands {as : List α} (h : b.operands sort? position args = .ok as) :
    as.length = args.length := by
  induction args generalizing position as with
  | nil =>
      cases h
      rfl
  | cons arg args ih =>
      rcases hsort : sort? arg with _ | a
      · rw [operands_cons_of_none hsort] at h
        cases h
      · rw [operands_cons_of_some hsort] at h
        rcases hrest : b.operands sort? (position + 1) args with e | rest
        · rw [hrest] at h
          cases h
        · rw [hrest] at h
          cases h
          rw [List.length_cons, List.length_cons, ih hrest]

end

/-- An operation is refused for the number of its operands, or else for their sorts. -/
theorem run_eq_error_iff {α β : Type} {op : Operation α β} {sort? : Atom → Option α} :
    b.run op sort? args = .error refusal ↔
      op.arity.admits args.length = false ∧ refusal = .count b args.length ∨
        op.arity.admits args.length = true ∧ b.operands sort? 1 args = .error refusal := by
  rw [run]
  rcases hcount : op.arity.admits args.length with _ | _
  · simp [eq_comm]
  rcases hoperands : b.operands sort? 1 args with e | as
  · simp
  · have hvalue : (op.value? as).isSome = true := by
      rw [op.isSome_value?, length_of_operands hoperands, hcount]
    obtain ⟨value, hvalue⟩ := Option.isSome_iff_exists.mp hvalue
    simp [hvalue]

/-- **When a call is refused, and for what cause**: for a number of operands that the built-in does
not take, and otherwise for the first operand that is of another sort than it takes. -/
theorem apply_eq_error_iff :
    b.apply args = .error refusal ↔
      b.arity.admits args.length = false ∧ refusal = .count b args.length ∨
        b.arity.admits args.length = true ∧
          ∃ front arg back, args = front ++ arg :: back ∧ (∀ a ∈ front, a.type = b.operandType) ∧
            arg.type ≠ b.operandType ∧ refusal = .type b (1 + front.length) arg.type := by
  rw [apply, arity, operandType]
  rcases b.meaning with op | op | op <;>
    simp only [map_eq_error_iff, run_eq_error_iff, operands_eq_error_iff, Meaning.arity,
      Meaning.operandType, Atom.boolean?_eq_none_iff, Atom.number?_eq_none_iff, ne_eq,
      Classical.not_not]

end Builtin

end FlatLisp
