/-
The table of operations.

Every motion gives three operations: move, copy up to where it leads, and cut. Every structural edit
gives one. Widening and narrowing the selection and indenting complete the table. Each operation has
an identifier, and `Operation.ofId?` finds it again.
-/
import SexpEdit.Edit.Indent
import SexpEdit.Edit.Kill
import SexpEdit.Edit.Reshape
import SexpEdit.Motion

namespace SexpEdit

/-- The structural edits, with their direction or delimiters. -/
inductive StructuralEdit where
  | slurp (backward : Bool)
  | barf (backward : Bool)
  | splice
  | split
  | kill (backward : Bool)
  | spliceKill (backward : Bool)
  | delete (backward : Bool)
  | wrap (delimiters : Delimiters)
  | transpose
  deriving DecidableEq, Repr

namespace StructuralEdit

/-- Every `StructuralEdit`. -/
def all : List StructuralEdit :=
  [slurp false, slurp true, barf false, barf true, splice, split, kill false, kill true,
    spliceKill false, spliceKill true, delete false, delete true, wrap .parens, wrap .square,
    wrap .curly, transpose]

/-- The name of a `StructuralEdit` in the id of its operation. -/
def name : StructuralEdit → String
  | slurp false => "slurpSexpForward"
  | slurp true => "slurpSexpBackward"
  | barf false => "barfSexpForward"
  | barf true => "barfSexpBackward"
  | splice => "spliceSexp"
  | split => "splitSexp"
  | kill false => "killSexpForward"
  | kill true => "killSexpBackward"
  | spliceKill false => "spliceSexpKillForward"
  | spliceKill true => "spliceSexpKillBackward"
  | delete false => "deleteForward"
  | delete true => "deleteBackward"
  | wrap .parens => "wrapAroundParens"
  | wrap .square => "wrapAroundSquare"
  | wrap .curly => "wrapAroundCurly"
  | transpose => "transpose"

/-- The options of `e`: those given in `o`, with its own direction or delimiters. -/
def options (e : StructuralEdit) (o : Edit.Options) : Edit.Options :=
  match e with
  | slurp backward | barf backward | kill backward | spliceKill backward | delete backward =>
    { o with backward }
  | wrap delimiters => { o with delimiters := some delimiters }
  | splice | split | transpose => o

/-- The edit `e` at `offset`, when `o` are already the `options` of `e`. -/
def edit? (e : StructuralEdit) (d : Document) (offset : Nat) (o : Edit.Options) : Option Edit :=
  match e with
  | slurp _ => d.slurp? offset o.backward
  | barf _ => d.barf? offset o.backward
  | splice => d.splice? offset
  | split => d.split? offset
  | kill _ => d.kill? offset o
  | spliceKill _ => d.spliceKill? offset o.backward
  | delete _ => d.delete? offset o
  | wrap _ => d.wrap? offset o
  | transpose => d.transpose? offset

/-- The `Edit` of a `StructuralEdit` at an offset, with its own `options`. -/
def at? (e : StructuralEdit) (d : Document) (offset : Nat) (o : Edit.Options) : Option Edit :=
  e.edit? d offset (e.options o)

/-- Whether the lines an edit touches are left as they are indented. -/
def skipsIndent : StructuralEdit → Bool
  | delete _ => true
  | _ => false

end StructuralEdit

/-- The name of a `Motion` in the ids of its operations. -/
def Motion.name : Motion → String
  | topLevel => "rangeForDefun"
  | forward => "forwardSexp"
  | backward => "backwardSexp"
  | down => "forwardDownSexp"
  | up => "backwardUpSexp"
  | out => "closeList"

/-- The name of a motion after another word. -/
def Motion.capitalizedName : Motion → String
  | topLevel => "RangeForDefun"
  | forward => "ForwardSexp"
  | backward => "BackwardSexp"
  | down => "ForwardDownSexp"
  | up => "BackwardUpSexp"
  | out => "CloseList"

/-- What a user can ask for. -/
inductive Operation where
  /-- Move the cursor. -/
  | navigate (motion : Motion)
  /-- Copy from the cursor to where a motion leads. -/
  | yank (motion : Motion)
  /-- Cut from the cursor to where a motion leads. -/
  | cut (motion : Motion)
  /-- Widen the selection. -/
  | expand
  /-- Take back the last widening. -/
  | contract
  | edit (edit : StructuralEdit)
  | indent
  deriving DecidableEq, Repr

/-- An identifier that names no operation. -/
structure UnknownOperation where
  id : String
  deriving DecidableEq, Repr

/-- The text of an `UnknownOperation`. -/
def UnknownOperation.message (u : UnknownOperation) : String :=
  "Unknown operation: " ++ u.id

namespace Operation

/-- Every operation, in the order they are listed to a user. -/
def all : List Operation :=
  Motion.all.flatMap (fun m => [navigate m, yank m, cut m]) ++ [expand, contract] ++
    StructuralEdit.all.flatMap fun e =>
      if e = .transpose then [indent, edit e] else [edit e]

/-- What every identifier starts with. -/
def family : String :=
  "paredit."

/-- The name of an `Operation`, without the `family`. -/
def name : Operation → String
  | navigate m => m.name
  | yank m => "yank" ++ m.capitalizedName
  | cut m => "cut" ++ m.capitalizedName
  | expand => "sexpRangeExpansion"
  | contract => "sexpRangeContraction"
  | edit e => e.name
  | indent => "indentRange"

/-- The id of an `Operation`: the `family` and the `name`. -/
def id (op : Operation) : String :=
  family ++ op.name

/-- Whether an `Operation` can change the text. -/
def modifiesText : Operation → Bool
  | cut _ | edit _ | indent => true
  | _ => false

/-- The `Operation` with an `id`. -/
def ofId? (s : String) : Except UnknownOperation Operation :=
  match all.find? fun op => op.id == s with
  | some op => .ok op
  | none => .error ⟨s⟩

end Operation

end SexpEdit
