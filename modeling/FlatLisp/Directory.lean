import FlatLisp.FileSystem

/-!
# Directories

The smallest of file systems: a directory with files in it and no other directories, as a program
sees it that runs there. A path is followed from part to part. Of what is outside only the way up is
there, which leads to directories and to no file.

## Main definitions

* `Directory.read`: the bytes at a path, or why there are none.
* `Directory.put`: the directory with a file at a path.
-/

namespace FlatLisp

/-- A directory: the names of its files, each with its bytes. -/
structure Directory where
  /-- The files. -/
  files : List (String × ByteArray)

/-- What a path leads to. -/
inductive Place where
  /-- The directory itself. -/
  | here
  /-- Another directory. -/
  | outside
  /-- A file. -/
  | file (name : String)
  /-- A name in the directory that no file has. -/
  | vacant (name : String)
  /-- Nothing. -/
  | nowhere
deriving DecidableEq, Repr

namespace Directory

/-- Follows the parts of a path from a place. -/
def follow (d : Directory) : Place → List String → Except FileError Place
  | place, [] => .ok place
  | .file _, _ :: _ => .error .notDirectory
  | .nowhere, _ :: _ => .error .notFound
  | .vacant _, _ :: _ => .error .notFound
  | .outside, part :: rest =>
    d.follow (if part = "" ∨ part = "." ∨ part = ".." then .outside else .nowhere) rest
  | .here, part :: rest =>
    if part = "" ∨ part = "." then d.follow .here rest
    else if part = ".." then d.follow .outside rest
    else if (d.files.lookup part).isSome then d.follow (.file part) rest
    else d.follow (.vacant part) rest

/-- The parts of a path between slashes, when the first of them begins with `part`. -/
def parts (part : String) : List Char → List String
  | [] => [part]
  | c :: rest => if c = '/' then part :: parts "" rest else parts (part.push c) rest

/-- What a path leads to. The empty path leads nowhere, and one that begins with a slash leads
out of the directory. -/
def find (d : Directory) (path : String) : Except FileError Place :=
  match parts "" path.toList with
  | [""] => .error .notFound
  | "" :: rest => d.follow .outside rest
  | parts => d.follow .here parts

/-- The bytes of the file at a path. -/
def read (d : Directory) (path : String) : Except FileError ByteArray :=
  match d.find path with
  | .error e => .error e
  | .ok (.file name) =>
    match d.files.lookup name with
    | some bytes => .ok bytes
    | none => .error .notFound
  | .ok .here | .ok .outside => .error .isDirectory
  | .ok (.vacant _) | .ok .nowhere => .error .notFound

/-- Where a file at a path is to go, and its name there. A path that ends in slashes asks for
a directory, so that no file can go there. -/
def findNew (d : Directory) (path : String) : Except FileError Place :=
  match path.toList.reverse with
  | '/' :: rest =>
    match String.ofList (rest.dropWhile (· == '/')).reverse with
    | "" => .ok .outside
    | front => (d.find front).map fun _ => .outside
  | _ => d.find path

/-- The directory with these bytes as the file at a path. -/
def put (d : Directory) (path : String) (bytes : ByteArray) : Except FileError Directory :=
  match d.findNew path with
  | .error e => .error e
  | .ok (.file name) | .ok (.vacant name) =>
    .ok ⟨(name, bytes) :: d.files.filter fun file => file.1 != name⟩
  | .ok .here | .ok .outside => .error .isDirectory
  | .ok .nowhere => .error .notFound

instance : FileSystem Directory where
  read := read
  write := put

/-- The names of the files, in ascending order. -/
def names (d : Directory) : List String :=
  (d.files.map Prod.fst).mergeSort

end Directory

end FlatLisp
