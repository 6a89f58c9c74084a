/-
Deltas.

A delta makes a new text out of an old one.  It is a row of pieces, each of them bytes of the old
text or text of its own, and the new text is the pieces one after the other.  A delta is built from
left to right: `Delta.Builder.replace?` puts text in the place of some bytes and copies what stands
between them and the bytes replaced before; `Delta.Builder.build` copies what is left.

Every offset here is a byte offset of the old text.
-/
import SexpEdit.Text.Bytes

namespace SexpEdit

/-- A piece of a new text. -/
inductive Delta.Piece where
  /-- The bytes of the old text between two offsets. -/
  | copy (start stop : Nat)
  /-- Text that the old one does not have. -/
  | insert (text : List Char)
  deriving DecidableEq, Repr

/-- The pieces of a new text, in order. -/
structure Delta where
  pieces : List Delta.Piece
  deriving DecidableEq, Repr

namespace Delta

/-- The text of a piece; nothing when a `copy` is not one of whole characters of `old`. -/
def Piece.text? (old : List Char) : Piece → Option (List Char)
  | copy start stop => Text.byteSlice? old start stop
  | insert text => some text

/-- The texts of some pieces of `old`, one after the other. -/
def joined? (old : List Char) : List Piece → Option (List Char)
  | [] => some []
  | piece :: pieces =>
    match piece.text? old, joined? old pieces with
    | some text, some rest => some (text ++ rest)
    | _, _ => none

/-- The text that a delta makes of `old`; nothing when one of its pieces has no `Piece.text?`. -/
def text? (d : Delta) (old : List Char) : Option (List Char) :=
  joined? old d.pieces

/-- A delta that is being built. -/
structure Builder where
  /-- The byte length of the old text. -/
  length : Nat
  pieces : List Piece := []
  /-- Where the bytes end that `pieces` stands for. -/
  reached : Nat := 0

namespace Builder

/-- Puts `text` in the place of the bytes between two offsets; nothing when `pieces` stands for some
of them already. -/
def replace? (b : Builder) (start stop : Nat) (text : List Char) : Option Builder :=
  if start < b.reached then none
  else
    let kept := if b.reached < start then [Piece.copy b.reached start] else []
    let put := if text.isEmpty then [] else [Piece.insert text]
    some { b with pieces := b.pieces ++ (kept ++ put), reached := stop }

/-- The delta, with what is left of the old text at its end. -/
def build (b : Builder) : Delta :=
  ⟨if b.reached < b.length then b.pieces ++ [.copy b.reached b.length] else b.pieces⟩

end Builder

end Delta

end SexpEdit
