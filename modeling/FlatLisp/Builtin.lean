import FlatLisp.Atom

/-!
# Built-In Procedures

The fourteen procedures that every scope starts with. A built-in takes operands of one sort
and a fixed range of operand counts, and refuses anything else: first a wrong count, then the
first operand of a wrong sort.

## Main definitions

* `Operation`: how operands of one sort are combined, with the counts it takes.
* `Builtin.meaning`: the table of what the built-ins compute.
* `Builtin.apply`: the value of a call, or why it is refused.
-/

namespace FlatLisp

/-- The operand counts that a procedure takes. -/
inductive Arity where
  /-- This count only. -/
  | exactly (count : Nat)
  /-- This count and any above it. -/
  | atLeast (count : Nat)
  /-- From the first count to the second. -/
  | between (least most : Nat)
deriving DecidableEq, Repr

namespace Arity

/-- Whether a procedure takes so many operands. -/
def admits (given : Nat) : Arity → Bool
  | exactly count => given == count
  | atLeast count => count ≤ given
  | between least most => least ≤ given && given ≤ most

/-- The words for an arity. -/
def display : Arity → String
  | exactly count => "exactly " ++ toString count ++ " argument(s)"
  | atLeast count => "at least " ++ toString count ++ " argument(s)"
  | between least most => "between " ++ toString least ++ " and " ++ toString most ++ " arguments"

end Arity

/-- How operands from `α` are combined to a value in `β`. -/
inductive Operation (α β : Type) where
  /-- A function of one operand. -/
  | unary (f : α → β)
  /-- A function of two operands. -/
  | binary (f : α → α → β)
  /-- A function of one operand or of two. -/
  | unaryOrBinary (f : α → β) (g : α → α → β)
  /-- The operands, at least `least` of them, are taken up into `start` from left to right. -/
  | fold (least : Nat) (start : β) (step : β → α → β)

namespace Operation

variable {α β : Type}

/-- The operand counts of an operation. -/
def arity : Operation α β → Arity
  | unary _ => .exactly 1
  | binary _ => .exactly 2
  | unaryOrBinary _ _ => .between 1 2
  | fold least _ _ => .atLeast least

/-- The value for a row of operands, if their count is one that the operation takes. -/
def value? : Operation α β → List α → Option β
  | unary f, [a] => some (f a)
  | binary f, [a, b] => some (f a b)
  | unaryOrBinary f _, [a] => some (f a)
  | unaryOrBinary _ g, [a, b] => some (g a b)
  | fold least start step, operands =>
    if least ≤ operands.length then some (operands.foldl step start) else none
  | _, _ => none

/-- An operation has a value for exactly the operand counts of its arity. -/
theorem isSome_value? (op : Operation α β) (operands : List α) :
    (op.value? operands).isSome = op.arity.admits operands.length := by
  cases op <;> rcases operands with _ | ⟨_, _ | ⟨_, _ | ⟨_, _⟩⟩⟩ <;>
    simp [value?, arity, Arity.admits] <;> split <;> simp_all

end Operation

/-- The built-in procedures. -/
inductive Builtin where
  /-- Negation of a truth value. -/
  | not
  /-- Whether all operands are true. -/
  | and
  /-- Whether some operand is true. -/
  | or
  /-- Comparison of two numbers: below. -/
  | less
  /-- Comparison of two numbers: below or equal. -/
  | lessOrEqual
  /-- Comparison of two numbers: above. -/
  | greater
  /-- Comparison of two numbers: above or equal. -/
  | greaterOrEqual
  /-- Comparison of two numbers: equal. -/
  | equal
  /-- The sum of the operands. -/
  | add
  /-- The negative of one number, or the difference of two. -/
  | subtract
  /-- The product of the operands. -/
  | multiply
  /-- The quotient of two numbers; by zero it is infinite or not a number. -/
  | divide
  /-- The decimal logarithm. -/
  | log10
  /-- A power: base, then exponent. -/
  | power
deriving DecidableEq, Repr

/-- What a built-in computes, by the sort of its operands and of its value. -/
inductive Meaning where
  /-- Truth values from truth values. -/
  | logic (op : Operation Bool Bool)
  /-- A truth value from numbers. -/
  | comparison (op : Operation Float Bool)
  /-- A number from numbers. -/
  | arithmetic (op : Operation Float Float)

/-- The operand counts of a meaning. -/
def Meaning.arity : Meaning → Arity
  | logic op => op.arity
  | comparison op => op.arity
  | arithmetic op => op.arity

/-- The sort of the operands of a meaning. -/
def Meaning.operandType : Meaning → AtomType
  | logic _ => .boolean
  | comparison _ => .number
  | arithmetic _ => .number

namespace Builtin

/-- All built-ins, in the order in which a scope lists them. -/
def all : List Builtin :=
  [not, and, or, less, lessOrEqual, greater, greaterOrEqual, equal, add, subtract, multiply,
    divide, log10, power]

/-- The name of a built-in. -/
def name : Builtin → String
  | not => "not"
  | and => "and"
  | or => "or"
  | less => "<"
  | lessOrEqual => "<="
  | greater => ">"
  | greaterOrEqual => ">="
  | equal => "="
  | add => "+"
  | subtract => "-"
  | multiply => "*"
  | divide => "/"
  | log10 => "log10"
  | power => "pow"

/-- The built-in of a name. -/
def ofName? (name : String) : Option Builtin :=
  all.find? fun b => b.name == name

/-- What a built-in computes. -/
def meaning : Builtin → Meaning
  | not => .logic (.unary fun a => !a)
  | and => .logic (.fold 1 true fun a b => a && b)
  | or => .logic (.fold 1 false fun a b => a || b)
  | less => .comparison (.binary fun x y => x < y)
  | lessOrEqual => .comparison (.binary fun x y => x ≤ y)
  | greater => .comparison (.binary fun x y => x > y)
  | greaterOrEqual => .comparison (.binary fun x y => x ≥ y)
  | equal => .comparison (.binary fun x y => x == y)
  | add => .arithmetic (.fold 1 0 fun x y => x + y)
  | subtract => .arithmetic (.unaryOrBinary (fun x => -x) fun x y => x - y)
  | multiply => .arithmetic (.fold 2 1 fun x y => x * y)
  | divide => .arithmetic (.binary fun x y => x / y)
  | log10 => .arithmetic (.unary Float.log10)
  | power => .arithmetic (.binary Float.pow)

/-- The operand counts of a built-in. -/
def arity (b : Builtin) : Arity := b.meaning.arity

/-- The sort of the operands of a built-in. -/
def operandType (b : Builtin) : AtomType := b.meaning.operandType

end Builtin

/-- Why a built-in refuses a call. -/
inductive Refusal where
  /-- It does not take so many operands. -/
  | count (builtin : Builtin) (given : Nat)
  /-- The operand at this place, counted from one, is of another sort than it takes. -/
  | type (builtin : Builtin) (position : Nat) (found : AtomType)
deriving DecidableEq, Repr

/-- The message of a refusal. -/
def Refusal.message : Refusal → String
  | count builtin given =>
    "invalid number of arguments: procedure '" ++ builtin.name ++ "' expects " ++
      builtin.arity.display ++ ", got " ++ toString given
  | type builtin position found =>
    "procedure '" ++ builtin.name ++ "' expects a " ++ builtin.operandType.name ++
      " for argument " ++ toString position ++ ", got a " ++ found.name

namespace Builtin

/-- The operands of a call, read by `sort?` from the one at `position` on; the first that is of
another sort is refused. -/
def operands {α : Type} (b : Builtin) (sort? : Atom → Option α) (position : Nat) :
    List Atom → Except Refusal (List α)
  | [] => .ok []
  | arg :: rest =>
    match sort? arg with
    | none => .error (.type b position arg.type)
    | some a =>
      match b.operands sort? (position + 1) rest with
      | .error e => .error e
      | .ok as => .ok (a :: as)

/-- The value of an operation on the operands of a call. -/
def run {α β : Type} (b : Builtin) (op : Operation α β) (sort? : Atom → Option α)
    (args : List Atom) : Except Refusal β :=
  if op.arity.admits args.length then
    match b.operands sort? 1 args with
    | .error e => .error e
    | .ok operands =>
      match op.value? operands with
      | some value => .ok value
      | none => .error (.count b args.length)
  else
    .error (.count b args.length)

/-- The value of a call. -/
def apply (b : Builtin) (args : List Atom) : Except Refusal Atom :=
  match b.meaning with
  | .logic op => (b.run op Atom.boolean? args).map .boolean
  | .comparison op => (b.run op Atom.number? args).map .boolean
  | .arithmetic op => (b.run op Atom.number? args).map .number

end Builtin

end FlatLisp
