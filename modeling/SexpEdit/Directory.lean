/-
Directories.

A `Directory` is the files below one place, each with its path from there. Reading a file can fail
because there is none, because a part of its path is a file, or because the path names a directory;
writing fails for the same reasons, except that a file that is not there is made if its directory
is.
-/
import SexpEdit.Path

namespace SexpEdit

/-- Why a file cannot be read or written. -/
inductive FileError where
  | notFound
  | notDirectory
  | isDirectory
  /-- Any other reason, in the words of the system. -/
  | other (message : String)
  deriving DecidableEq, Repr

/-- The text of a `FileError`. -/
def FileError.message : FileError → String
  | notFound => "No such file or directory (os error 2)"
  | notDirectory => "Not a directory (os error 20)"
  | isDirectory => "Is a directory (os error 21)"
  | other message => message

/-- Files by the parts of their paths. -/
structure Directory where
  files : List (List (List Char) × List Char) := []

namespace Directory

/-- A `Directory` with the given files, each by its `Path.parts`. -/
def ofFiles (files : List (List Char × List Char)) : Directory :=
  ⟨files.map fun (path, text) => (Path.parts path, text)⟩

/-- The text of the file with the path `parts`. -/
def find? (d : Directory) (parts : List (List Char)) : Option (List Char) :=
  (d.files.find? fun f => f.1 == parts).map Prod.snd

/-- Whether some file lies below the path `parts`. -/
def isBelow (d : Directory) (parts : List (List Char)) : Bool :=
  parts.isEmpty || d.files.any fun f => parts.isPrefixOf f.1 && f.1 != parts

/-- Whether a file lies on the way to the path `parts`. -/
def isBlocked (d : Directory) (parts : List (List Char)) : Bool :=
  d.files.any fun f => f.1.isPrefixOf parts && f.1 != parts

/-- Why there is no file with the given parts: something on the way to it is a file (`isBlocked`),
or nothing is there. -/
def missing (d : Directory) (parts : List (List Char)) : FileError :=
  if d.isBlocked parts then .notDirectory else .notFound

/-- Reads a file, or says by a `FileError` why there is none. -/
def read (d : Directory) (path : List Char) : Except FileError (List Char) :=
  let parts := Path.parts path
  if path.isEmpty then .error .notFound
  else if d.isBelow parts then .error .isDirectory
  else
    match d.find? parts with
    | none => .error (d.missing parts)
    | some text => if Path.isDirectoryOnly path then .error .notDirectory else .ok text

/-- Why a file could not be written at `path`, if it could not. -/
def writeFault? (d : Directory) (path : List Char) : Option FileError :=
  let parts := Path.parts path
  if path.isEmpty then some .notFound
  else if d.isBelow parts then some .isDirectory
  else if !d.isBelow parts.dropLast then some (d.missing parts)
  else if Path.isDirectoryOnly path then
    some (if (d.find? parts).isSome then .notDirectory else .isDirectory)
  else none

end Directory

end SexpEdit
