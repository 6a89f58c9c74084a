/-
Structural edits: what they are made of.

An `Edit` is a list of changes, to be made one after another, and where the caret goes. An edit
function of a document gives no `Edit` where it does not apply. Offsets in the changes count in the
text that the changes before them left.
-/
import SexpEdit.Change
import SexpEdit.Document

namespace SexpEdit

/-- Changes to a document and where the caret goes. -/
structure Edit where
  changes : List Change
  caret : Nat
  deriving DecidableEq, Repr

namespace Edit

/-- An edit that only moves the caret, to `caret`. -/
def moved (caret : Nat) : Edit :=
  ⟨[], caret⟩

end Edit

/-- A pair of delimiters that text can be wrapped in, see `Document.wrap?`. -/
inductive Delimiters where
  | parens
  | square
  | curly
  deriving DecidableEq, Repr

namespace Delimiters

/-- The kind of collection that the `Delimiters` make. -/
def kind : Delimiters → Kind
  | parens => .list
  | square => .vector
  | curly => .map

/-- The opening one of the `Delimiters`. -/
def opening (p : Delimiters) : List Char :=
  p.kind.opening

/-- The closing one of the `Delimiters`. -/
def closing (p : Delimiters) : List Char :=
  p.kind.closing

end Delimiters

/-- What an edit is told beside the offset it starts from. -/
structure Edit.Options where
  /-- The other end of the selection, when there is one. -/
  otherEnd : Option Nat := none
  /-- Whether the edit works on what is before the caret. -/
  backward : Bool := false
  delimiters : Option Delimiters := none
  indentWidth : Nat := 2
  deriving DecidableEq, Repr

/-- The selection from `offset` to the other end, lower end first; `none` when it is empty. -/
def Edit.Options.region? (o : Edit.Options) (offset : Nat) : Option (Nat × Nat) :=
  match o.otherEnd with
  | none => none
  | some other => if other = offset then none else some (min offset other, max offset other)

/-- The place among `forms` of the form that `offset` is strictly inside of. -/
def Form.around? (forms : List Form) (offset : Nat) : Option Nat :=
  forms.findIdx? fun f => f.start < offset && offset < f.stop

/-- The last of `forms` that ends at `offset` or before it. -/
def Form.lastBefore? (forms : List Form) (offset : Nat) : Option Form :=
  (forms.filter fun f => f.stop ≤ offset).getLast?

/-- The first of `forms` that starts at `offset` or after it. -/
def Form.firstAfter? (forms : List Form) (offset : Nat) : Option Form :=
  forms.find? fun f => offset ≤ f.start

end SexpEdit
