/-
The history of a widening selection.

Each widening pushes the selection it made; narrowing goes back to the one below. The history only
counts while the selection still contains the one below the top: once it has moved elsewhere, a
widening starts a new history and a narrowing does nothing.
-/
import SexpEdit.Host

namespace SexpEdit

/-- The selections that widening went through, the latest first; the last is where it began. -/
structure Expansion where
  frames : List Selection := []

namespace Expansion

/-- An `Expansion` that has not widened anything. -/
def empty : Expansion :=
  {}

/-- The selection below the top. -/
def below? (x : Expansion) : Option Selection :=
  x.frames[1]?

/-- Whether the selection `below?` the top still lies in the live one. -/
def appliesTo (x : Expansion) (live : Selection) : Bool :=
  x.below?.any live.contains

/-- Selects `d` and remembers the selection it replaces. -/
def expand (x : Expansion) (h : Host) (d : Destination) : Selection × Expansion × Host :=
  let live := h.currentSelection
  let frames := if x.appliesTo live then x.frames else [live]
  let (s, h) := h.selectDestination d
  (s, ⟨s :: frames⟩, h)

/-- Goes back to the selection before the last widening, if the history still applies. -/
def contract (x : Expansion) (h : Host) : Option Selection × Expansion × Host :=
  match x.frames with
  | _ :: s :: frames =>
    if h.currentSelection.contains s then (some s, ⟨s :: frames⟩, h.select s) else (none, x, h)
  | _ => (none, x, h)

end Expansion

end SexpEdit
