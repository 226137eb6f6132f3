import FlatLisp.EvalError

/-!
# Records

An evaluation keeps a ledger of what it does: each entry into an expression, each call, each
definition and each reset of the scope. A reader of the ledger asks for records up to a
severity.
-/

namespace FlatLisp

/-- How much a record matters. -/
inductive Severity where
  /-- A failure. -/
  | error
  /-- A loss of bindings. -/
  | warn
  /-- News. -/
  | info
  /-- A call or a definition. -/
  | debug
  /-- An entry into an expression. -/
  | trace
deriving DecidableEq, Repr

namespace Severity

/-- The severities, the gravest first. -/
def all : List Severity := [error, warn, info, debug, trace]

/-- The name of a severity. -/
def name : Severity → String
  | error => "error"
  | warn => "warn"
  | info => "info"
  | debug => "debug"
  | trace => "trace"

/-- The severity of a name. -/
def ofName? (name : String) : Option Severity :=
  all.find? fun s => s.name == name

/-- The place of a severity, counted from the gravest. -/
def rank : Severity → Nat
  | error => 0
  | warn => 1
  | info => 2
  | debug => 3
  | trace => 4

end Severity

/-- One entry of the ledger. -/
inductive Record where
  /-- The evaluation of an expression begins. -/
  | evaluating (e : Expr)
  /-- A procedure is called. -/
  | applying (procedure : String) (args : List Atom)
  /-- A name is bound to a value. -/
  | defining (name : String) (value : Expr)
  /-- A bound or reserved name was to be defined, and the scope is reset. -/
  | redefinition (name : String)
  /-- A call failed, and the scope is reset. -/
  | refusal (cause : EvalError)
  /-- An evaluation failed, and its failure is not passed on. -/
  | failure (error : EvalError)

namespace Record

/-- The severity of a record. -/
def severity : Record → Severity
  | evaluating _ => .trace
  | applying _ _ => .debug
  | defining _ _ => .debug
  | redefinition _ => .warn
  | refusal _ => .warn
  | failure _ => .error

/-- The words of a record. -/
def message : Record → String
  | evaluating e => "evaluate " ++ e.inspect
  | applying procedure args => "apply " ++ procedure ++ " to " ++ Atom.inspectAll args
  | defining name value => "define " ++ name ++ " as " ++ value.display
  | redefinition name => "redefinition of '" ++ name ++ "', resetting environment"
  | refusal cause => cause.message ++ ", resetting environment"
  | failure error => error.message

/-- The records of a severity and of graver ones. -/
def upTo (most : Severity) (records : List Record) : List Record :=
  records.filter fun r => r.severity.rank ≤ most.rank

end Record

end FlatLisp
