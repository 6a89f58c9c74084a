/-
Selections.

A selection is a range with a cursor, which is one of its ends. `Selection.between` makes one from
an anchor and a cursor in either order; it is the only way selections are made, so that `start` is
not after `stop` and the cursor is an end.
-/
import SexpEdit.Motion

namespace SexpEdit

/-- A range of a document and its active end. -/
structure Selection where
  start : Nat
  stop : Nat
  /-- Either `start` or `stop`. -/
  cursor : Nat
  deriving DecidableEq, Repr

namespace Selection

/-- The empty selection at `offset`. -/
def caret (offset : Nat) : Selection :=
  ⟨offset, offset, offset⟩

/-- The selection between `anchor` and `cursor`, in either order. -/
def between (anchor cursor : Nat) : Selection :=
  ⟨min anchor cursor, max anchor cursor, cursor⟩

/-- The selection of a `Destination`: a `caret` at a point, or a span. -/
def ofDestination : Destination → Selection
  | .point offset => caret offset
  | .span a b => between a b

/-- The end that is not the cursor. -/
def anchor (s : Selection) : Nat :=
  if s.cursor = s.start then s.stop else s.start

/-- Whether a `Selection` is a `caret`. -/
def isEmpty (s : Selection) : Bool :=
  s.start == s.stop

/-- Whether `other` lies within `s`. -/
def contains (s other : Selection) : Bool :=
  s.start ≤ other.start && other.stop ≤ s.stop

/-- The selection with both ends moved into a document of that `length`. -/
def clamp (s : Selection) (length : Nat) : Selection :=
  between (min s.anchor length) (min s.cursor length)

end Selection

end SexpEdit
