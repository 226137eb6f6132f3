import FlatLisp.Diagnostic
import FlatLisp.Directory
import FlatLisp.Logger

/-!
# The Command

The command runs one program and prints its value. The program comes from standard input, from
a file, or from the command line itself. The exit status tells how far it came: zero for a
value, two for a program that has none, one for everything that went wrong before.

The log of the run goes to standard error as well, before what the command itself has to say. How
the logger is set up from the environment is left to its parameter.

## Main definitions

* `Source.ofArgs?`: where the program comes from.
* `Command.report`: what the command prints and its status, once the program has been fetched.
* `Command.run`: the command as a whole, with the files around it and a logger.
-/

namespace FlatLisp

/-- What a program prints, and how it ends. -/
structure Report where
  /-- The exit status. -/
  exit : Nat
  /-- What goes to standard output. -/
  stdout : String
  /-- What goes to standard error. -/
  stderr : String
deriving DecidableEq, Repr

/-- Where the program of a command comes from. -/
inductive Source where
  /-- Standard input. -/
  | stdin
  /-- The command line. -/
  | expression (text : String)
  /-- A file. -/
  | file (path : String)
deriving DecidableEq, Repr

namespace Source

/-- Where the program comes from by the arguments of the command, if they say so: none, an
expression after `-e`, or a path that is no option. -/
def ofArgs? : List String → Option Source
  | [] => some .stdin
  | ["-e", text] => some (.expression text)
  | [path] => if path.toList.head? = some '-' then none else some (.file path)
  | _ => none

/-- The name of a source in messages. -/
def name : Source → String
  | stdin => "<stdin>"
  | expression _ => "<expression>"
  | file path => path

end Source

namespace Command

/-- What the command says about arguments that it does not take. -/
def usage : Report := ⟨1, "", "usage: slisp [FILE | -e EXPRESSION]\n"⟩

/-- What the command says about a source that cannot be read. -/
def unreadable (source reason : String) : Report :=
  ⟨1, "", "Error: could not read " ++ source ++ ": " ++ reason ++ "\n"⟩

/-- What the command says about a program, from its bytes. -/
def evaluate (logger : Logger) (source : String) (bytes : ByteArray) : Report :=
  match Session.initial.load bytes with
  | .error .notText => unreadable source notTextReason
  | .error (.unreadable text e) =>
    ⟨1, "", logger.text 0 [.unread e] ++ (e.report source text ++ "Error: invalid syntax\n")⟩
  | .ok session =>
    let turn := session.tryEval
    let log := logger.text 0 (turn.records.map .recorded)
    match turn.result with
    | .ok e => ⟨0, e.display ++ "\n", log⟩
    | .error e => ⟨2, "", log ++ ("Error: " ++ e.message ++ "\n")⟩

/-- What the command says about a source, once its bytes have been fetched or could not be. -/
def report (logger : Logger) (source : Source) : Except FileError ByteArray → Report
  | .error e => unreadable source.name e.reason
  | .ok bytes => evaluate logger source.name bytes

/-- The command with these arguments, with these files around it and these bytes on standard
input. -/
def run {Files : Type} [FileSystem Files] (args : List String) (files : Files)
    (stdin : ByteArray) (logger : Logger := .silent) : Report :=
  match Source.ofArgs? args with
  | none => usage
  | some .stdin => report logger .stdin (.ok stdin)
  | some (.expression text) => report logger (.expression text) (.ok text.toUTF8)
  | some (.file path) => report logger (.file path) (FileSystem.read files path)

end Command

end FlatLisp
