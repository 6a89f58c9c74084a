/-
Paths.

A path is made of parts between slashes. Empty parts and single dots name nothing. `Path.extension?`
gives what follows the last dot of the last part, by which the language of a file is found.
-/

namespace SexpEdit.Path

/-- The text between the slashes `/`, with one piece more than there are slashes. -/
def pieces : List Char → List (List Char)
  | [] => [[]]
  | c :: cs =>
    if c = '/' then [] :: pieces cs
    else
      match pieces cs with
      | [] => [[c]]
      | p :: ps => (c :: p) :: ps

/-- The `pieces` of a path that name something. -/
def parts (path : List Char) : List (List Char) :=
  (pieces path).filter fun p => !p.isEmpty && p != ['.']

/-- Whether a path can only name a directory: it ends in a slash or a single dot. -/
def isDirectoryOnly (path : List Char) : Bool :=
  match (pieces path).getLast? with
  | some p => p.isEmpty || p == ['.']
  | none => true

/-- The last of the `parts` of a path, unless it is the directory above. -/
def fileName? (path : List Char) : Option (List Char) :=
  match (parts path).getLast? with
  | none => none
  | some p => if p = ['.', '.'] then none else some p

/-- What follows the last dot of the `fileName?`, if something stands before that dot. -/
def extension? (path : List Char) : Option (List Char) :=
  match fileName? path with
  | none => none
  | some name =>
    let after := (name.reverse.takeWhile (· != '.')).reverse
    if name.length ≤ after.length + 1 then none else some after

end SexpEdit.Path
