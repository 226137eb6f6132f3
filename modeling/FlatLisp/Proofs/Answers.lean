import FlatLisp.Env
import FlatLisp.Proofs.Refusals

/-!
# What a Built-In Answers

Each built-in has a signature: the operand counts it takes, the sort of its operands and the sort of
its value. The signature alone tells which calls are refused, and for what cause. A wrong count is
seen before any operand is looked at, then the first operand of another sort is named, and a call
with neither fault has a value of the promised sort. This holds of `and` and `or` too: although an
operand can decide them, those after it are looked at as well.

## Main definitions

* `Builtin.signature`: the table of signatures.

## Main results

* `Builtin.apply_eq_ok_iff`: the calls that have a value.
* `Builtin.apply_and`, `Builtin.apply_or`: what `and` and `or` say of truth values.
* `Procedure.call_answers`: what a procedure answers to any operands.
-/

namespace FlatLisp

/-- What a built-in takes, and what it gives. -/
structure Signature where
  /-- The operand counts. -/
  arity : Arity
  /-- The sort of all operands. -/
  operandType : AtomType
  /-- The sort of the value. -/
  valueType : AtomType

namespace Builtin

/-- The signatures of the built-ins. -/
def signature : Builtin → Signature
  | not => ⟨.exactly 1, .boolean, .boolean⟩
  | and | or => ⟨.atLeast 1, .boolean, .boolean⟩
  | less | lessOrEqual | greater | greaterOrEqual | equal => ⟨.exactly 2, .number, .boolean⟩
  | add => ⟨.atLeast 1, .number, .number⟩
  | subtract => ⟨.between 1 2, .number, .number⟩
  | multiply => ⟨.atLeast 2, .number, .number⟩
  | divide | power => ⟨.exactly 2, .number, .number⟩
  | log10 => ⟨.exactly 1, .number, .number⟩

variable {b : Builtin} {args : List Atom}

/-- A built-in takes the operand counts of its signature. -/
theorem arity_eq_signature (b : Builtin) : b.arity = b.signature.arity := by
  cases b <;> rfl

/-- A built-in takes operands of the sort of its signature. -/
theorem operandType_eq_signature (b : Builtin) : b.operandType = b.signature.operandType := by
  cases b <;> rfl

/-! ### Values -/

/-- A value has the sort that the signature promises. -/
theorem type_of_apply {atom : Atom} (h : b.apply args = .ok atom) :
    atom.type = b.signature.valueType := by
  have hmap {β : Type} {f : β → Atom} {sort : AtomType} (hf : ∀ v, (f v).type = sort)
      {value : Except Refusal β} (hvalue : value.map f = .ok atom) : atom.type = sort := by
    cases value with
    | error refusal => cases hvalue
    | ok v =>
        cases hvalue
        exact hf v
  cases b <;> exact hmap (fun _ => rfl) h

/-- In a row where some operand is of another sort there is a first one. -/
theorem exists_first_of_exists {sort : AtomType} (h : ∃ a ∈ args, a.type ≠ sort) :
    ∃ front arg back, args = front ++ arg :: back ∧ (∀ a ∈ front, a.type = sort) ∧
      arg.type ≠ sort := by
  obtain ⟨found, hfound⟩ : ∃ a, args.find? (fun a => a.type ≠ sort) = some a := by
    rw [← Option.isSome_iff_exists, List.find?_isSome]
    simpa using h
  obtain ⟨hsort, front, back, hargs, hfront⟩ := List.find?_eq_some_iff_append.mp hfound
  exact ⟨front, found, back, hargs, by simpa using hfront, by simpa using hsort⟩

/-- **The calls that have a value**: those with an operand count that the built-in takes and with no
operand of another sort. -/
theorem apply_eq_ok_iff :
    (∃ atom, b.apply args = .ok atom) ↔
      b.arity.admits args.length = true ∧ ∀ a ∈ args, a.type = b.operandType := by
  constructor
  · rintro ⟨atom, hatom⟩
    have hrefused {refusal : Refusal} : b.apply args ≠ .error refusal := by simp [hatom]
    rcases hcount : b.arity.admits args.length with _ | _
    · exact absurd (apply_eq_error_iff.mpr (.inl ⟨hcount, rfl⟩)) hrefused
    refine ⟨rfl, fun a ha => Classical.byContradiction fun htype => ?_⟩
    obtain ⟨front, arg, back, hargs, hfront, harg⟩ := exists_first_of_exists ⟨a, ha, htype⟩
    exact hrefused (apply_eq_error_iff.mpr
      (.inr ⟨hcount, front, arg, back, hargs, hfront, harg, rfl⟩))
  · rintro ⟨hcount, htypes⟩
    rcases happly : b.apply args with refusal | atom
    · rcases apply_eq_error_iff.mp happly with ⟨hwrong, -⟩ | ⟨-, front, arg, back, rfl, -, harg, -⟩
      · rw [hcount] at hwrong
        cases hwrong
      · exact absurd (htypes arg (by simp)) harg
    · exact ⟨atom, rfl⟩

/-! ### Conjunction and disjunction -/

/-- Truth values are read as they are, wherever they stand. -/
theorem operands_map_boolean (truths : List Bool) (position : Nat) :
    b.operands Atom.boolean? position (truths.map .boolean) = .ok truths := by
  induction truths generalizing position with
  | nil => rfl
  | cons truth truths ih =>
      have htruth : (Atom.boolean truth).boolean? = some truth := rfl
      rw [List.map_cons, operands_cons_of_some htruth, ih]
      rfl

/-- A fold has a value for truth values if they are enough. -/
theorem run_fold_map_boolean {truths : List Bool} {least : Nat} (start : Bool)
    (step : Bool → Bool → Bool) (h : least ≤ truths.length) :
    b.run (.fold least start step) Atom.boolean? (truths.map .boolean) =
      .ok (truths.foldl step start) := by
  have hcount : (Operation.fold least start step).arity.admits (truths.map Atom.boolean).length =
      true := by
    simpa [Operation.arity, Arity.admits] using h
  rw [run, if_pos hcount, operands_map_boolean]
  simp [Operation.value?, h]

theorem foldl_and (start : Bool) (truths : List Bool) :
    truths.foldl (fun a b => a && b) start = (start && truths.all id) := by
  induction truths generalizing start with
  | nil => simp
  | cons truth truths ih => rw [List.foldl_cons, ih, List.all_cons, Bool.and_assoc]; rfl

theorem foldl_or (start : Bool) (truths : List Bool) :
    truths.foldl (fun a b => a || b) start = (start || truths.any id) := by
  induction truths generalizing start with
  | nil => simp
  | cons truth truths ih => rw [List.foldl_cons, ih, List.any_cons, Bool.or_assoc]; rfl

/-- `and` says of one truth value or more whether all are true. -/
theorem apply_and (truth : Bool) (truths : List Bool) :
    and.apply ((truth :: truths).map .boolean) =
      .ok (.boolean (decide (∀ t ∈ truth :: truths, t = true))) := by
  have hleast : 1 ≤ (truth :: truths).length := by simp
  have hfold := run_fold_map_boolean (b := and) true (fun a b => a && b) hleast
  have hall : (truth :: truths).all id = decide (∀ t ∈ truth :: truths, t = true) := by
    rw [Bool.eq_iff_iff, List.all_eq_true, decide_eq_true_eq]
    rfl
  rw [foldl_and, Bool.true_and, hall] at hfold
  exact congrArg (Except.map Atom.boolean) hfold

/-- `or` says of one truth value or more whether some is true. -/
theorem apply_or (truth : Bool) (truths : List Bool) :
    or.apply ((truth :: truths).map .boolean) =
      .ok (.boolean (decide (∃ t ∈ truth :: truths, t = true))) := by
  have hleast : 1 ≤ (truth :: truths).length := by simp
  have hfold := run_fold_map_boolean (b := or) false (fun a b => a || b) hleast
  have hany : (truth :: truths).any id = decide (∃ t ∈ truth :: truths, t = true) := by
    rw [Bool.eq_iff_iff, List.any_eq_true, decide_eq_true_eq]
    rfl
  rw [foldl_or, Bool.false_or, hany] at hfold
  exact congrArg (Except.map Atom.boolean) hfold

end Builtin

/-! ### Procedures -/

namespace Procedure

variable {p : Procedure} {args : List Atom}

theorem call_eq_error_iff {refusal : Refusal} :
    p.call args = .error refusal ↔ p.builtin.apply args = .error refusal :=
  Builtin.map_eq_error_iff

/-- Operands are refused for their sorts exactly if their count is right and one of them is of
another sort. -/
theorem exists_call_eq_type_iff :
    (∃ b position found, p.call args = .error (.type b position found)) ↔
      p.builtin.arity.admits args.length = true ∧ ∃ a ∈ args, a.type ≠ p.builtin.operandType := by
  simp only [call_eq_error_iff, Builtin.apply_eq_error_iff]
  constructor
  · rintro ⟨b, position, found, ⟨-, hrefusal⟩ | ⟨hcount, front, arg, back, rfl, -, harg, -⟩⟩
    · cases hrefusal
    · exact ⟨hcount, arg, by simp, harg⟩
  · rintro ⟨hcount, hother⟩
    obtain ⟨front, arg, back, hargs, hfront, harg⟩ := Builtin.exists_first_of_exists hother
    exact ⟨_, _, _, .inr ⟨hcount, front, arg, back, hargs, hfront, harg, rfl⟩⟩

theorem call_eq_ok_iff {e : Expr} :
    p.call args = .ok e ↔ ∃ atom, p.builtin.apply args = .ok atom ∧ Expr.leaf atom = e := by
  rw [call]
  cases p.builtin.apply args <;> simp [Except.map]

/-- **What a procedure answers**, whatever its operands are. It refuses their count exactly if the
signature does not admit it, and says how many they are. Otherwise it refuses their sorts exactly if
one of them is of another sort than the signature says, and names the first such operand, counted
from one, with the sort that it has. Otherwise it gives a lone atom of the sort that the signature
says. And of truth values, `and` says whether all of them are true, and `or` whether some of them
is. -/
theorem call_answers (p : Procedure) (args : List Atom) :
    (∀ b given, p.call args = .error (.count b given) ↔
      p.builtin.signature.arity.admits args.length = false ∧
        b = p.builtin ∧ given = args.length) ∧
    ((∃ b position found, p.call args = .error (.type b position found)) ↔
      p.builtin.signature.arity.admits args.length = true ∧
        ∃ a ∈ args, a.type ≠ p.builtin.signature.operandType) ∧
    (∀ b position found, p.call args = .error (.type b position found) ↔
      p.builtin.signature.arity.admits args.length = true ∧
        ∃ front arg back, args = front ++ arg :: back ∧
          (∀ a ∈ front, a.type = p.builtin.signature.operandType) ∧
          arg.type ≠ p.builtin.signature.operandType ∧
          b = p.builtin ∧ position = front.length + 1 ∧ found = arg.type) ∧
    ((∃ atom, p.call args = .ok (.leaf atom) ∧ atom.type = p.builtin.signature.valueType) ↔
      p.builtin.signature.arity.admits args.length = true ∧
        ∀ a ∈ args, a.type = p.builtin.signature.operandType) ∧
    (∀ (name : String) (truth : Bool) (truths : List Bool),
      Procedure.call ⟨name, .and⟩ ((truth :: truths).map .boolean) =
        .ok (.leaf (.boolean (decide (∀ t ∈ truth :: truths, t = true)))) ∧
      Procedure.call ⟨name, .or⟩ ((truth :: truths).map .boolean) =
        .ok (.leaf (.boolean (decide (∃ t ∈ truth :: truths, t = true))))) := by
  simp only [← Builtin.arity_eq_signature, ← Builtin.operandType_eq_signature]
  refine ⟨fun b given => ?_, exists_call_eq_type_iff, fun b position found => ?_, ?_,
    fun name truth truths => ⟨?_, ?_⟩⟩
  · rw [call_eq_error_iff, Builtin.apply_eq_error_iff]
    simp
  · rw [call_eq_error_iff, Builtin.apply_eq_error_iff]
    simp [Nat.add_comm 1]
  · rw [← Builtin.apply_eq_ok_iff]
    constructor
    · rintro ⟨atom, hcall, -⟩
      obtain ⟨atom, hatom, -⟩ := call_eq_ok_iff.mp hcall
      exact ⟨atom, hatom⟩
    · rintro ⟨atom, hatom⟩
      exact ⟨atom, call_eq_ok_iff.mpr ⟨atom, hatom, rfl⟩, Builtin.type_of_apply hatom⟩
  · exact call_eq_ok_iff.mpr ⟨_, Builtin.apply_and truth truths, rfl⟩
  · exact call_eq_ok_iff.mpr ⟨_, Builtin.apply_or truth truths, rfl⟩

end Procedure

end FlatLisp
