/-!
# File Systems

What a program sees of the files around it: what a path gives when it is read, and what comes of
writing there. Nothing else is asked of a file system, so that any paths may lead to files, and any
others nowhere, for whatever reason the system has.

## Main definitions

* `FileError`: why a path gives no file.
* `FileSystem`: what reading and writing at a path come to.
-/

namespace FlatLisp

/-- Why a path gives no file. -/
inductive FileError where
  /-- Nothing is there. -/
  | notFound
  /-- A directory is there. -/
  | isDirectory
  /-- The path goes on after a file. -/
  | notDirectory
  /-- Any other reason that the system has, with its number, its kind and its words. -/
  | other (code : Nat) (kind words : String)
deriving DecidableEq, Repr

namespace FileError

/-- The system's number of an error. -/
def code : FileError → Nat
  | notFound => 2
  | isDirectory => 21
  | notDirectory => 20
  | other code _ _ => code

/-- The name of an error's kind. -/
def kind : FileError → String
  | notFound => "NotFound"
  | isDirectory => "IsADirectory"
  | notDirectory => "NotADirectory"
  | other _ kind _ => kind

/-- The system's words for an error. -/
def words : FileError → String
  | notFound => "No such file or directory"
  | isDirectory => "Is a directory"
  | notDirectory => "Not a directory"
  | other _ _ words => words

/-- The reason that is given for an error. -/
def reason (e : FileError) : String :=
  e.words ++ " (os error " ++ toString e.code ++ ")"

/-- The text of an error in a message for the programmer. -/
def inspect (e : FileError) : String :=
  "Os \x7b code: " ++ toString e.code ++ ", kind: " ++ e.kind ++ ", message: \"" ++ e.words ++
    "\" \x7d"

end FileError

/-- A file system, in any of its states. -/
class FileSystem (Files : Type) where
  /-- The bytes of the file at a path, or why there are none. -/
  read : Files → String → Except FileError ByteArray
  /-- The files after bytes have been written to the file at a path, or why they cannot be. -/
  write : Files → String → ByteArray → Except FileError Files

end FlatLisp
