import FlatLisp.FileSystem
import FlatLisp.Session
import FlatLisp.Settings.Toml

/-!
# Settings

What can be set about a conversation, with the values that hold unless a settings file says
otherwise. A file that gives a key that is no setting, or a value of the wrong sort, is
refused as a whole.

## Main definitions

* `Settings.ofText?`: the settings that the text of a settings file gives.
* `Settings.ofRead`: the settings after a settings file was looked for.
-/

namespace FlatLisp

/-- The key bindings of the line editor. -/
inductive EditMode where
  /-- Modal. -/
  | vi
  /-- With control keys. -/
  | emacs
deriving DecidableEq, Repr

namespace EditMode

/-- The name of the key bindings. -/
def name : EditMode → String
  | vi => "vi"
  | emacs => "emacs"

/-- The key bindings of a name. -/
def ofName? (name : String) : Option EditMode :=
  [vi, emacs].find? fun mode => mode.name == name

end EditMode

/-- What can be set about a conversation. -/
structure Settings where
  /-- What invites an entry. -/
  prompt : String := "slisp> "
  /-- Where entries are kept from one conversation to the next. -/
  historyFile : String := "slisp_history.txt"
  /-- Whether entries are kept. -/
  saveHistory : Bool := true
  /-- The key bindings. -/
  editMode : EditMode := .vi
  /-- The severity up to which records are shown. -/
  logLevel : String := "warn"
deriving DecidableEq, Repr

/-- Why there are no settings. -/
inductive SettingsError where
  /-- The file cannot be read. -/
  | unreadable (path reason : String)
  /-- The file says nothing that can be understood. -/
  | malformed
deriving DecidableEq, Repr

namespace Settings

/-- Where settings are looked for unless another place is given. -/
def defaultPath : String := "slisp.toml"

/-- The settings with one of them changed. A choice is as good as its name where one of some
names is asked for. -/
def set? (s : Settings) : String × Toml.Value → Option Settings
  | ("prompt", .text prompt) => some { s with prompt }
  | ("history-file", .text historyFile) => some { s with historyFile }
  | ("save-history", .flag saveHistory) => some { s with saveHistory }
  | ("edit-mode", .text name) => (EditMode.ofName? name).map fun editMode => { s with editMode }
  | ("edit-mode", .choice name) => (EditMode.ofName? name).map fun editMode => { s with editMode }
  | ("log-level", .text logLevel) => some { s with logLevel }
  | _ => none

/-- The settings that the text of a settings file gives. -/
def ofText? (text : String) : Option Settings := do
  let entries ← Toml.entries? text
  entries.foldlM set? {}

/-- The settings after the file at `path` was looked for. A file that is not there changes
nothing. -/
def ofRead (path : String) : Except FileError ByteArray → Except SettingsError Settings
  | .error .notFound => .ok {}
  | .error e => .error (.unreadable path e.reason)
  | .ok bytes =>
    match String.fromUTF8? bytes with
    | none => .error (.unreadable path notTextReason)
    | some text =>
      match ofText? text with
      | none => .error .malformed
      | some s => .ok s

end Settings

/-- The message of a failure to get settings. The format's own reasons are not worded. -/
def SettingsError.message : SettingsError → String
  | unreadable path reason => "could not read " ++ path ++ ": " ++ reason
  | malformed => "invalid config"

end FlatLisp
