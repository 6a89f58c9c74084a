/-
The clipboard.

A clipboard holds the text last written to it. One that is out of order refuses every write with the
same error and holds nothing to paste.
-/
import SexpEdit.Host

namespace SexpEdit

/-- Why a write to the clipboard fails. -/
inductive ClipboardError where
  /-- There is no clipboard. -/
  | unavailable (reason : String)
  /-- There is one, but it does not take the text. -/
  | write (reason : String)
  deriving DecidableEq, Repr

/-- The text of a `ClipboardError`. -/
def ClipboardError.message : ClipboardError → String
  | unavailable reason => "Clipboard unavailable: " ++ reason
  | write reason => "Failed to write clipboard: " ++ reason

/-- The text last copied, and what keeps the clipboard from taking more. -/
structure Clipboard where
  contents : Option (List Char) := none
  fault : Option ClipboardError := none

/-- Any failure of an operation. -/
inductive Failure where
  | edit (e : EditError)
  | clipboard (e : ClipboardError)
  | mismatch (m : Change.Mismatch)
  deriving DecidableEq, Repr

/-- The text of a `Failure`, which is that of its cause. -/
def Failure.message : Failure → String
  | edit e => e.message
  | clipboard e => e.message
  | mismatch m => m.message

namespace Clipboard

/-- Takes `text` over, unless there is a `fault`. -/
def write (c : Clipboard) (text : List Char) : Except ClipboardError Clipboard :=
  match c.fault with
  | some e => .error e
  | none => .ok { c with contents := some text }

/-- Copies the text of `h` between `a` and `b`, in either order. -/
def copySpan (c : Clipboard) (h : Host) (a b : Nat) : Except ClipboardError Clipboard :=
  c.write (h.slice (min a b) (max a b))

/-- Copies the text between `a` and `b`, as `copySpan` does, and takes it out. Nothing is taken out
when copying fails. -/
def cutSpan (c : Clipboard) (h : Host) (a b : Nat) : Except Failure Bool × Host × Clipboard :=
  match c.copySpan h a b with
  | .error e => (.error (.clipboard e), h, c)
  | .ok c =>
    match h.applyAll [.deleteSpan a b] with
    | (.ok applied, h) => (.ok applied, h, c)
    | (.error e, h) => (.error (.edit e), h, c)

end Clipboard

end SexpEdit
