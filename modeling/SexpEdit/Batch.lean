/-
Batches.

A batch runs operations over a text, each as its own undo step, with a clipboard of its own, and
gives the text, the selection and the clipboard at the end. It stops at the first operation that
fails, and breaks off where a number or a text becomes too large for a machine word.
-/
import SexpEdit.Checked.Session

namespace SexpEdit

/-- What a batch leaves: the text, the selection, and what was copied last. -/
structure BatchResult where
  text : List Char
  selection : Selection
  clipboard : Option (List Char)
  deriving DecidableEq, Repr

/-- The operation at which a batch stopped, and why. -/
structure BatchError where
  operation : Operation
  failure : Failure
  deriving DecidableEq, Repr

/-- The text of a `BatchError`: the operation, and the message of its `Failure`. -/
def BatchError.message (e : BatchError) : String :=
  e.operation.id ++ " failed: " ++ e.failure.message

namespace Batch

variable {m : Type → Type} [Monad m]

/-- How an operation is run: `Session.run`, or `Checked.run` on words. -/
abbrev Step (m : Type → Type) : Type :=
  Session → Operation → Host → Clipboard →
    m (Except Failure Outcome × Session × Host × Clipboard)

/-- Runs operations one after another with `step`, up to the first that fails. -/
def runAll (step : Step m) (s : Session) (h : Host) (c : Clipboard) :
    List Operation → m (Except BatchError (Session × Host × Clipboard))
  | [] => pure (.ok (s, h, c))
  | op :: ops => do
    match ← step s op h c with
    | (.ok _, s, h, c) => runAll step s h c ops
    | (.error e, _) => return .error ⟨op, e⟩

/-- The host of a batch: `text` in `language`, with the anchor and the cursor of `selection`. -/
def host (language : String) (text : List Char) (selection : Nat × Nat) : Host :=
  .ofBuffer { Buffer.ofText language text with selection := .between selection.1 selection.2 }

/-- Runs `ops` over the `Batch.host` of `text` in `language`, each by `step`. -/
def runWith (step : Step m) (s : Session) (language : String) (text : List Char)
    (selection : Nat × Nat) (ops : List Operation) : m (Except BatchError BatchResult) := do
  return match ← runAll step s (host language text selection) {} ops with
    | .error e => .error e
    | .ok (_, h, c) => .ok ⟨h.text, h.buffer.selection, c.contents⟩

/-- Runs a batch on words: `runWith` with the step `Checked.run`. -/
def run (s : Session) (language : String) (text : List Char) (selection : Nat × Nat)
    (ops : List Operation) : Checked (Except BatchError BatchResult) :=
  runWith Checked.run s language text selection ops

end Batch

end SexpEdit
