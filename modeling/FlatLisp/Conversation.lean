import FlatLisp.Command
import FlatLisp.Entry.Verdict
import FlatLisp.Settings
import FlatLisp.Text.White

/-!
# Conversations

A conversation takes entries from a stream of lines and answers each: it evaluates what it can
read, and goes on after any failure. All entries share one session. An entry is a line, or as
many lines as it takes until its parentheses are closed.

A line that closes a parenthesis too many is refused, but it stays in the entry, so that no
later line can complete it. The conversation ends with the stream, or at an entry that is the
word `exit`.

The lines come from a stream and not from a terminal: there is no prompt, and no line is edited.

## Main definitions

* `Conversation.hear`: takes one more line.
* `Conversation.run`: a whole conversation, with the files around it and a logger.
-/

namespace FlatLisp

/-- A conversation so far. -/
structure Conversation where
  /-- The session that all entries share. -/
  session : Session := .initial
  /-- The lines of an entry that is not complete. -/
  pending : List Char := []
  /-- The entries to keep for later conversations, the last one first. -/
  kept : List (List Char) := []
  /-- No more lines are taken. -/
  ended : Bool := false
  /-- What has gone to standard output. -/
  stdout : String := ""
  /-- What has gone to standard error, with the log. -/
  stderr : String := ""
  /-- What becomes of events. -/
  logger : Logger := .silent
  /-- How many events there have been. -/
  logged : Nat := 0

namespace Conversation

/-- What a conversation begins with. -/
def banner : String := "slisp REPL v0.1.0\nType 'exit' or press Ctrl-D to quit.\n"

/-- A conversation at its beginning. Entries of earlier ones are looked for if entries are
kept, and it is said if there are none. -/
def opening (settings : Settings) (history : Bool) (logger : Logger := .silent) :
    Conversation :=
  { logger
    stdout := banner ++
      if settings.saveHistory && !history then "No previous history.\n" else "" }

/-- Says something on standard output. -/
def say (c : Conversation) (text : String) : Conversation :=
  { c with stdout := c.stdout ++ text }

/-- Says something on standard error. -/
def complain (c : Conversation) (text : String) : Conversation :=
  { c with stderr := c.stderr ++ text }

/-- Hands events to the logger. -/
def log (c : Conversation) (events : List Event) : Conversation :=
  { c with
    stderr := c.stderr ++ c.logger.text c.logged events
    logged := c.logged + events.length }

/-- Whether an entry is the word that ends a conversation, in letters of either case. -/
def isFarewell (entry : String) : Bool :=
  entry.toList.map Char.toLower == "exit".toList

/-- Answers an entry, which has no white space at its ends: reads it and evaluates it. -/
def answer (c : Conversation) (entry : String) : Conversation :=
  match c.session.parse entry with
  | .error e => c.complain (e.report "REPL" entry ++ "Error: invalid syntax\n")
  | .ok session =>
    let turn := session.tryEval
    let c := { c with session := turn.session }.log (turn.records.map .recorded)
    match turn.result with
    | .ok e => c.say (e.display ++ "\n")
    | .error e =>
      let cause := match e.cause? with
        | some cause => "  caused by: " ++ cause.message ++ "\n"
        | none => ""
      c.complain ("Error: " ++ e.message ++ "\n" ++ cause)

/-- Takes a complete entry. Any but the empty one is kept, and one of white space alone is not
answered. -/
def enter (c : Conversation) (entry : List Char) : Conversation :=
  let c := if entry.isEmpty then c else { c with kept := entry :: c.kept }
  let trimmed := String.ofList (Text.trim entry)
  if trimmed.isEmpty then c
  else if isFarewell trimmed then { c with ended := true }
  else c.answer trimmed

/-- Splits off what ends the last line of a text: a line feed, or a carriage return and a line
feed. -/
def splitEnding (text : List Char) : List Char × List Char :=
  match text.reverse with
  | '\n' :: '\r' :: rest => (rest.reverse, ['\r', '\n'])
  | '\n' :: rest => (rest.reverse, ['\n'])
  | _ => (text, [])

/-- Takes a line, with what ends it. The ending stays in an entry that goes on, and is dropped
from one that is refused. Every character of a line counts as it is: a backspace takes nothing
back, though to some line editors it does. -/
def hearText (c : Conversation) (line : List Char) : Conversation :=
  let (entry, ending) := splitEnding (c.pending ++ line)
  match Verdict.ofText entry with
  | .complete => { c with pending := [] }.enter entry
  | .incomplete => { c with pending := entry ++ ending }
  | .unmatched position => { c with pending := entry }.complain (Verdict.unmatchedMessage position)

/-- Takes a line that is no text, which ends the conversation. -/
def hearNoText (c : Conversation) : Conversation :=
  { c with ended := true }.complain
    ("Readline Error: Io(Error \x7b kind: InvalidData, message: \"" ++ notTextReason ++
      "\" \x7d)\n")

/-- Takes a line in bytes. -/
def hear (c : Conversation) (line : ByteArray) : Conversation :=
  match String.fromUTF8? line with
  | some text => c.hearText text.toList
  | none => c.hearNoText

/-- Takes the end of the stream. -/
def hearEnd (c : Conversation) : Conversation :=
  { c with ended := true }.say "\nExiting.\n"

/-- Takes lines one after the other, up to the end of the conversation. -/
def hearEach (c : Conversation) (lines : List ByteArray) : Conversation :=
  lines.foldl (fun c line => if c.ended then c else c.hear line) c

/-- Takes lines up to the end of the conversation, or else up to the end of the stream. -/
def hearAll (c : Conversation) (lines : List ByteArray) : Conversation :=
  let c := c.hearEach lines
  if c.ended then c else c.hearEnd

/-- Cuts bytes after each line feed, with `line` in front of the first piece. -/
def linesOf (line : ByteArray) : List UInt8 → List ByteArray
  | [] => if line.isEmpty then [] else [line]
  | byte :: rest =>
    if byte = 10 then line.push byte :: linesOf .empty rest else linesOf (line.push byte) rest

/-- The settings of a conversation, and what there is to log of them, after the file at `path` was
looked for: the usual ones if the file cannot be used. -/
def settled (path : String) (found : Except FileError ByteArray) : Settings × List Event :=
  match Settings.ofRead path found with
  | .ok settings => (settings, [])
  | .error e => ({}, [.unsettled path e])

/-- The entries of earlier conversations: the text of the history file, if it can be read. -/
def history? : Except FileError ByteArray → Option String
  | .ok bytes => String.fromUTF8? bytes
  | .error _ => none

/-- The text of the history file after a conversation, if there is anything to keep: earlier
entries, then the entries to keep, each with a line feed after it. -/
def keepsake? (c : Conversation) (settings : Settings) (earlier : String) : Option String :=
  if settings.saveHistory && !c.kept.isEmpty then
    some (earlier ++ String.ofList (c.kept.reverse.flatMap fun entry => entry ++ ['\n']))
  else
    none

/-- What a conversation that is over has said, and how it ends if the entries to keep could not
be kept. -/
def report (c : Conversation) (unkept : Option FileError) : Report :=
  match unkept with
  | none => ⟨0, c.stdout, c.stderr⟩
  | some e => ⟨1, c.stdout, c.stderr ++ "Error: Io(" ++ e.inspect ++ ")\n"⟩

/-- The end of a conversation: its report, and the files with the entries kept. -/
def close {Files : Type} [FileSystem Files] (c : Conversation) (settings : Settings)
    (earlier : String) (files : Files) : Report × Files :=
  match c.keepsake? settings earlier with
  | none => (c.report none, files)
  | some text =>
    match FileSystem.write files settings.historyFile text.toUTF8 with
    | .ok files => (c.report none, files)
    | .error e => (c.report (some e), files)

/-- A conversation with these files around it, with the settings of the file at `path` and with
these bytes on standard input; and the files after it. The settings choose the logger. -/
def run {Files : Type} [FileSystem Files] (files : Files) (path : String) (stdin : ByteArray)
    (logger : String → Logger := fun _ => .silent) : Report × Files :=
  let (settings, events) := settled path (FileSystem.read files path)
  let history := history? (FileSystem.read files settings.historyFile)
  let c := (opening settings history.isSome (logger settings.logLevel)).log events
  (c.hearAll (linesOf .empty stdin.data.toList)).close settings (history.getD "") files

end Conversation

end FlatLisp
