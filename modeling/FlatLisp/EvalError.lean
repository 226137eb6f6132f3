import FlatLisp.Builtin
import FlatLisp.Expr

/-!
# Why Evaluation Fails

The causes for which an expression has no value, and how each is worded.
-/

namespace FlatLisp

/-- Why a special form, or a call by name, is malformed. -/
inductive Malformed where
  /-- A conditional has another number of operands than three. -/
  | conditionalOperands (given : Nat)
  /-- The condition has a value that is no boolean. -/
  | conditionType (found : AtomType)
  /-- The condition has the empty expression as value. -/
  | conditionEmpty
  /-- A definition has another number of operands than two. -/
  | definitionOperands (given : Nat)
  /-- What is to be defined is no lone symbol. -/
  | definitionTarget (target : Expr)
  /-- The name called is bound to a value. -/
  | notProcedure (name : String)

/-- The message of a malformed form. -/
def Malformed.message : Malformed → String
  | conditionalOperands given =>
    "if expects a condition, a consequent and an alternate, got " ++ toString given ++
      " expression(s)"
  | conditionType found => "if condition must be a boolean, got a " ++ found.name
  | conditionEmpty => "if condition evaluated to nothing"
  | definitionOperands given =>
    "define expects a symbol and a value, got " ++ toString given ++ " expression(s)"
  | definitionTarget target => "define expects a symbol to bind, got " ++ target.inspect
  | notProcedure name => "'" ++ name ++ "' is a value, not a procedure"

/-- Why an expression has no value. -/
inductive EvalError where
  /-- The name is not bound. -/
  | unknownSymbol (name : String)
  /-- The name to be defined is bound or reserved. -/
  | alreadyDefined (name : String)
  /-- A special form, or a call by name, is malformed. -/
  | malformed (cause : Malformed)
  /-- The operand at this place, counted from one, has the empty expression as value. -/
  | emptyArgument (procedure : String) (position : Nat)
  /-- A built-in refuses a call that was made outside of any expression. -/
  | refused (cause : Refusal)
  /-- A call in an expression fails, for this cause. -/
  | procedureFailed (procedure : String) (cause : EvalError)

/-- The message of an evaluation error, without its cause. -/
def EvalError.message : EvalError → String
  | unknownSymbol name => "unknown symbol '" ++ name ++ "'"
  | alreadyDefined name => "symbol '" ++ name ++ "' is already defined"
  | malformed cause => "invalid special form: " ++ cause.message
  | emptyArgument procedure position =>
    "argument " ++ toString position ++ " to '" ++ procedure ++ "' evaluated to nothing"
  | refused cause => cause.message
  | procedureFailed procedure _ => "invalid arguments to '" ++ procedure ++ "'"

/-- The refusal behind an evaluation error, if there is one. -/
def EvalError.cause? : EvalError → Option Refusal
  | procedureFailed _ (refused cause) => some cause
  | _ => none

end FlatLisp
