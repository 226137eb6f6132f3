import FlatLisp.Conversation

/-!
# The Programs

Two programs share one executable. By the name `slisp-repl` it holds a conversation on
standard input; by any other name it is the command. Both only fetch bytes and print what the
library says about them.

Of what surrounds them some is simpler here. The log is filtered by the name of one severity, and
its lines have no time. Lines are taken as they come: there is no line editor, with its key
bindings, colours and completions, and the history is a file of plain lines.
-/

open FlatLisp

namespace FlatLisp.Main

/-- The cause of a failure to get at a file, if it is a known one. -/
def cause? : IO.Error → Option FileError
  | .noFileOrDirectory _ _ _ => some .notFound
  | .inappropriateType _ 20 _ => some .notDirectory
  | .inappropriateType _ _ _ => some .isDirectory
  | _ => none

/-- Prints a report, and gives its exit status. -/
def tell (r : Report) : IO UInt32 := do
  IO.print r.stdout
  IO.eprint r.stderr
  return UInt32.ofNat r.exit

/-- The logger for a filter, unless the environment has another: everything up to the severity that
it names, or nothing if it names none. -/
def logger (usual : String) : IO Logger := do
  match Severity.ofName? ((← IO.getEnv "RUST_LOG").getD usual) with
  | some most => return .upTo most fun _ severity => "[" ++ severity.name.toUpper ++ "] "
  | none => return .silent

/-- The bytes of a source. -/
def fetch : Source → IO ByteArray
  | .stdin => do (← IO.getStdin).readBinToEnd
  | .expression text => return text.toUTF8
  | .file path => IO.FS.readBinFile path

/-- The command. -/
def command (args : List String) : IO UInt32 := do
  match Source.ofArgs? args with
  | none => tell Command.usage
  | some source =>
    let logger ← logger "warn"
    match ← (fetch source).toBaseIO with
    | .ok bytes => tell (Command.report logger source (.ok bytes))
    | .error e =>
      match cause? e with
      | some cause => tell (Command.report logger source (.error cause))
      | none => tell (Command.unreadable source.name (toString e))

/-- The bytes of a file, any unknown failure counting as its absence. -/
def look (path : String) : IO (Except FileError ByteArray) := do
  match ← (IO.FS.readBinFile path).toBaseIO with
  | .ok bytes => return .ok bytes
  | .error e => return .error ((cause? e).getD .notFound)

/-- Prints what a conversation has said, and takes it off. -/
def utter (c : Conversation) : IO Conversation := do
  IO.print c.stdout
  IO.eprint c.stderr
  (← IO.getStdout).flush
  return { c with stdout := "", stderr := "" }

/-- Takes lines from standard input to the end. The prompt is for a terminal only. -/
partial def listen (settings : Settings) (stdin : IO.FS.Stream) (c : Conversation) :
    IO Conversation := do
  let c ← utter c
  if c.ended then return c
  if ← stdin.isTty then
    IO.print settings.prompt
    (← IO.getStdout).flush
  match ← stdin.getLine.toBaseIO with
  | .ok "" => listen settings stdin c.hearEnd
  | .ok line => listen settings stdin (c.hearText line.toList)
  | .error _ => listen settings stdin c.hearNoText

/-- The conversation. -/
def converse : IO UInt32 := do
  let path := (← IO.getEnv "SLISP_CONFIG").getD Settings.defaultPath
  let (settings, events) := Conversation.settled path (← look path)
  let history := Conversation.history? (← look settings.historyFile)
  let opening := Conversation.opening settings history.isSome (← logger settings.logLevel)
  let c ← listen settings (← IO.getStdin) (opening.log events)
  match c.keepsake? settings (history.getD "") with
  | none => tell (c.report none)
  | some text =>
    match ← (IO.FS.writeFile settings.historyFile text).toBaseIO with
    | .ok _ => tell (c.report none)
    | .error e => tell (c.report (some ((cause? e).getD .notFound)))

end FlatLisp.Main

/-- Runs the program whose name the executable has. -/
def main (args : List String) : IO UInt32 := do
  if (← IO.appPath).fileStem == some "slisp-repl" then FlatLisp.Main.converse
  else FlatLisp.Main.command args
