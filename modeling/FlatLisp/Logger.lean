import FlatLisp.Record
import FlatLisp.Settings

/-!
# The Log

A program writes to its log what an evaluation records, and what happens beside evaluations. The
log goes to standard error. Which events are written, and in what form, is up to a logger, which is
set up from outside of the program: one may write failures only, another one everything, and a third
one nothing at all.

A line of the log usually begins with the time. The time is not known here, but there is an order:
the moment of an event is the number of events before it, and a logger may make of it what it likes.

## Main definitions

* `Event`: what a program may write to its log.
* `Logger`, `Logger.text`: what becomes of events.
-/

namespace FlatLisp

/-- What a program may write to its log. -/
inductive Event where
  /-- An evaluation has recorded something. -/
  | recorded (r : Record)
  /-- A program could not be read. -/
  | unread (error : ReadError)
  /-- The settings at a path could not be used, and the usual ones hold. -/
  | unsettled (path : String) (error : SettingsError)

namespace Event

/-- The severity of an event. -/
def severity : Event → Severity
  | recorded r => r.severity
  | unread _ => .debug
  | unsettled _ _ => .warn

/-- The words of an event. -/
def message : Event → String
  | recorded r => r.message
  | unread error => "parse failed: " ++ error.inspect
  | unsettled path error => path ++ ": " ++ error.message ++ ", using defaults"

end Event

/-- What becomes of the events of a program: the line for each of them, if it is written at all. -/
structure Logger where
  /-- The line for an event, with its end, when this many events have been before it. -/
  line? : Nat → Event → Option String

namespace Logger

/-- Nothing is written. -/
def silent : Logger := ⟨fun _ _ => none⟩

/-- All events of a severity and of graver ones are written, each on a line that begins with a
stamp. -/
def upTo (most : Severity) (stamp : Nat → Severity → String) : Logger where
  line? moment e :=
    if e.severity.rank ≤ most.rank then some (stamp moment e.severity ++ e.message ++ "\n")
    else none

/-- What is written of some events, the first of which has this many events before it. -/
def text (logger : Logger) (moment : Nat) : List Event → String
  | [] => ""
  | e :: rest => (logger.line? moment e).getD "" ++ logger.text (moment + 1) rest

end Logger

end FlatLisp
