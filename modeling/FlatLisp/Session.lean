import FlatLisp.Eval
import FlatLisp.Expr.Read

/-!
# Sessions

A session is a scope together with the program that was read last. A program that cannot be
read leaves the session as it was; an evaluation changes the scope and keeps the program.

## Main definitions

* `Session.parse`, `Session.load`: take up a program from a text or from bytes.
* `Session.tryEval`, `Session.eval`: evaluate the program, with its failure or without.
-/

namespace FlatLisp

/-- A scope and the program to evaluate in it. -/
structure Session where
  /-- The scope. -/
  env : Env
  /-- The program that was read last. -/
  program : Expr

/-- Why a program could not be taken up from bytes. -/
inductive LoadError where
  /-- The bytes are no text in UTF-8. -/
  | notText
  /-- The text is no expression. -/
  | unreadable (text : String) (error : ReadError)

/-- The reason that is given for bytes that are no text. -/
def notTextReason : String := "stream did not contain valid UTF-8"

/-- The message of a failure to take up a program. -/
def LoadError.message : LoadError → String
  | notText => "failed to read program: " ++ notTextReason
  | unreadable _ error => error.message

/-- One evaluation in a session. -/
structure Turn (α : Type) where
  /-- What it gave. -/
  result : α
  /-- The session after it. -/
  session : Session
  /-- What was recorded. -/
  records : List Record

namespace Session

/-- The session at the beginning. Its program is the empty expression. -/
def initial : Session := ⟨.initial, .empty⟩

/-- Takes up the program that a text is. -/
def parse (s : Session) (text : String) : Except ReadError Session :=
  match Expr.ofText text with
  | .error e => .error e
  | .ok program => .ok { s with program }

/-- Takes up the program that bytes in UTF-8 are. -/
def load (s : Session) (bytes : ByteArray) : Except LoadError Session :=
  match String.fromUTF8? bytes with
  | none => .error .notText
  | some text =>
    match s.parse text with
    | .error e => .error (.unreadable text e)
    | .ok s => .ok s

/-- Evaluates the program. -/
def tryEval (s : Session) : Turn (Except EvalError Expr) :=
  let outcome := s.program.eval.run s.env
  ⟨outcome.result, { s with env := outcome.env }, outcome.records⟩

/-- Evaluates the program and never fails: a failure goes to the records, and the value is the
empty expression then. -/
def eval (s : Session) : Turn Expr :=
  let turn := s.tryEval
  match turn.result with
  | .ok e => ⟨e, turn.session, turn.records⟩
  | .error e => ⟨.empty, turn.session, turn.records ++ [.failure e]⟩

end Session

end FlatLisp
