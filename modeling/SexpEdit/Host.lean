/-
Hosts.

A host is what a command runs against: a buffer, which may stand behind a gate. The gate sees every
transaction with its number and may turn it down, with a reason or without one; the buffer does not
hear of it then.

`Host.applyAll` runs commands one transaction each, all in one undo group, and stops at the first
that is turned down. `Host.undoStop` ends the group with an empty transaction.
-/
import SexpEdit.Buffer
import SexpEdit.Change

namespace SexpEdit

/-- What a gate does with a transaction. -/
inductive Verdict where
  | pass
  | reject (reason : String)
  /-- Decline it without an error. -/
  | decline
  deriving DecidableEq, Repr

/-- Decides on each transaction by its number, counted from one, and its undo stops. -/
structure Gate where
  verdict : Nat → UndoStops → Verdict

/-- A buffer, the gate in front of it if there is one, and how many transactions were tried. -/
structure Host where
  buffer : Buffer
  gate : Option Gate := none
  calls : Nat := 0

/-- The `Op` of a command, which acts on the text as it is. -/
def Command.op : Command → Op
  | .insert s cs => .insert s cs
  | .delete s n => .delete s (s + n)

namespace Host

/-- A buffer with no gate. -/
def ofBuffer (buffer : Buffer) : Host :=
  { buffer }

/-- The text of the `buffer`. -/
def text (h : Host) : List Char :=
  h.buffer.text

/-- How many characters the `text` has. -/
def length (h : Host) : Nat :=
  h.buffer.length

/-- The text from `start` to `stop`. Behind a gate it is read off the whole text: so many characters
from the first offset on. -/
def slice (h : Host) (start stop : Nat) : List Char :=
  match h.gate with
  | none => h.buffer.slice start stop
  | some _ => (h.buffer.text.drop start).take (stop - start)

/-- Runs the transaction of `ops` with `Buffer.edit`, if the gate lets it pass. -/
def edit (h : Host) (stops : UndoStops) (ops : List Op) : Except EditError Bool × Host :=
  let calls := h.calls + 1
  let verdict := match h.gate with
    | none => Verdict.pass
    | some g => g.verdict calls stops
  match verdict with
  | .reject reason => (.error (.rejected reason), { h with calls })
  | .decline => (.ok false, { h with calls })
  | .pass =>
    let (result, buffer) := h.buffer.edit stops ops
    (result, { h with buffer, calls })

/-- Selects `s` and asks for it to be shown. -/
def select (h : Host) (s : Selection) : Host :=
  { h with buffer := { h.buffer with selection := s, revealed := some (s.start, s.stop) } }

/-- Selects the range of `d` and asks for it to be shown. -/
def selectDestination (h : Host) (d : Destination) : Selection × Host :=
  let s := Selection.ofDestination d
  (s, h.select s)

/-- The selection, moved into the document. -/
def currentSelection (h : Host) : Selection :=
  h.buffer.selection.clamp h.length

/-- Runs the `Command.op` of each command in order, one transaction each, and stops at the first
that fails or is declined. Those before it stay made. -/
def applyAll (h : Host) : List Command → Except EditError Bool × Host
  | [] => (.ok true, h)
  | c :: cs =>
    match h.edit .join [c.op] with
    | (.ok true, h) => applyAll h cs
    | stopped => stopped

/-- Ends the undo group with an empty transaction. -/
def undoStop (h : Host) : Except EditError Bool × Host :=
  h.edit .checkpoint [.insert 0 []]

/-- Ends the undo group unless `result` is `.ok true`, so that what a stopped run did make is undone
on its own. -/
def closeOnFailure {ε : Type} (result : Except ε Bool) (h : Host) : Host :=
  match result with
  | .ok true => h
  | _ => h.undoStop.2

/-- Runs `cs` with `applyAll` as one undo step. -/
def applyGrouped (h : Host) (cs : List Command) : Except EditError Bool × Host :=
  let (result, h) := h.applyAll cs
  let h := closeOnFailure result h
  match result with
  | .ok true => h.undoStop
  | _ => (result, h)

end Host

end SexpEdit
