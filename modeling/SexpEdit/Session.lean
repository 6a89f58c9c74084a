/-
Sessions.

A session says whether structural editing is on, for which languages, and how far a body is
indented, and it keeps the history of the widening selection. `Session.run` runs one operation
against a host and a clipboard; it does nothing when the session is off or the document is in
another language.

The steps of an operation stand on their own: `Host.navigate`, `Host.yank`, `Host.cut`,
`Host.indent` and `Host.edit?`. Each looks at the document and the selection once, at the start. An
edit makes its changes, places the caret, indents the lines it touched and ends the undo group, so
that it is undone in one step; a step that fails half-way ends the group too.
-/
import SexpEdit.Clipboard
import SexpEdit.Expansion
import SexpEdit.Operation

namespace SexpEdit

/-- What running an operation did. -/
inductive Outcome where
  /-- The session is off, or does not do this language. -/
  | skipped
  /-- Nothing to do here. -/
  | unchanged
  | selected (selection : Selection)
  | copied
  /-- Changes were made, or declined by the host. -/
  | edited (applied : Bool)
  deriving DecidableEq, Repr

namespace Host

/-- The `Document` of the text as it is. -/
def document (h : Host) : Document :=
  .ofText h.text

/-- Selects where `motion` leads from the cursor. -/
def navigate (h : Host) (motion : Document → Nat → Destination) : Selection × Host :=
  h.selectDestination (motion h.document h.currentSelection.cursor)

/-- The range from the cursor to where `motion` leads. -/
def reach (h : Host) (motion : Document → Nat → Destination) : Nat × Nat :=
  let cursor := h.currentSelection.cursor
  (motion h.document cursor).ends cursor

/-- Copies from the cursor to where `motion` leads: its `reach`. -/
def yank (h : Host) (c : Clipboard) (motion : Document → Nat → Destination) :
    Except Failure Unit × Clipboard :=
  let (a, b) := h.reach motion
  match c.copySpan h a b with
  | .ok c => (.ok (), c)
  | .error e => (.error (.clipboard e), c)

/-- The result of a transaction with its `EditError` seen as a `Failure`. -/
def liftEdit (result : Except EditError Bool) : Except Failure Bool :=
  match result with
  | .ok applied => .ok applied
  | .error e => .error (.edit e)

/-- Ends the undo group after a step of an operation. A step that failed or was declined is the
result; a step that succeeded gives way to the result of ending the group. -/
def conclude (result : Except Failure Bool) (h : Host) : Except Failure Bool × Host :=
  match result with
  | .ok true =>
    let (stopped, h) := h.undoStop
    (liftEdit stopped, h)
  | _ => (result, closeOnFailure result h)

/-- Cuts from the cursor to where `motion` leads, as one undo step. -/
def cut (h : Host) (c : Clipboard) (motion : Document → Nat → Destination) :
    Except Failure Bool × Host × Clipboard :=
  let (a, b) := h.reach motion
  let (result, h, c) := c.cutSpan h a b
  let (result, h) := conclude result h
  (result, h, c)

/-- Makes changes by `applyAll`, if all of them are commands. -/
def applyChanges (h : Host) (changes : List Change) : Except Failure Bool × Host :=
  match Change.commands changes with
  | .error m => (.error (.mismatch m), h)
  | .ok cs =>
    let (result, h) := h.applyAll cs
    (liftEdit result, h)

/-- Indents the lines from `start` to `stop` in the text as it is now. -/
def reindent (h : Host) (start stop width : Nat) : Except Failure Bool × Host :=
  h.applyChanges (h.document.indent start { otherEnd := some stop, indentWidth := width }).changes

/-- Indents the selected lines by `reindent`, as one undo step. -/
def indent (h : Host) (width : Nat) : Except Failure Bool × Host :=
  let s := h.currentSelection
  let (result, h) := h.reindent s.start s.stop width
  conclude result h

/-- Indents the lines that the commands `cs` touched, by `Command.touched?`. -/
def settleLines (h : Host) (cs : List Command) (width : Nat) : Except Failure Bool × Host :=
  match Command.touched? cs with
  | none => (.ok true, h)
  | some (start, stop) => h.reindent start stop width

/-- The result of an edit's changes as an `Outcome`. -/
def outcomeOf (result : Except Failure Bool) : Except Failure Outcome :=
  match result with
  | .ok applied => .ok (.edited applied)
  | .error e => .error e

/-- Makes the changes of an edit, places the caret, indents what was touched unless `skipsIndent`,
and ends the undo group. -/
def perform (h : Host) (e : Edit) (skipsIndent : Bool) (width : Nat) :
    Except Failure Outcome × Host :=
  match Change.commands e.changes with
  | .error m => (.error (.mismatch m), h)
  | .ok cs =>
    match h.applyAll cs with
    | (.ok true, h) =>
      let h := (h.selectDestination (.point e.caret)).2
      let (result, h) := if skipsIndent then (.ok true, h) else h.settleLines cs width
      let (result, h) := conclude result h
      (outcomeOf result, h)
    | (result, h) => (outcomeOf (liftEdit result), closeOnFailure result h)

/-- Runs the structural edit `editor` at the selection. Where it does not apply nothing changes; an
edit with no changes only moves the caret. -/
def runEdit (h : Host) (editor : Document → Nat → Edit.Options → Option Edit) (skipsIndent : Bool)
    (width : Nat) : Except Failure Outcome × Host :=
  let s := h.currentSelection
  let options : Edit.Options :=
    { otherEnd := if s.start = s.stop then none else some s.stop, indentWidth := width }
  match editor h.document s.start options with
  | none => (.ok .unchanged, h)
  | some e =>
    if e.changes.isEmpty then
      let (s, h) := h.selectDestination (.point e.caret)
      (.ok (.selected s), h)
    else h.perform e skipsIndent width

end Host

/-- Whether structural editing is on, for what, and the history of the widening selection. -/
structure Session where
  enabled : Bool := true
  languages : List String := ["clojure", "hy", "lisp", "scheme"]
  expansion : Expansion := .empty
  indentWidth : Nat := 2

namespace Session

/-- Turns structural editing on or off. -/
def toggle (s : Session) : Session :=
  { s with enabled := !s.enabled }

/-- Whether structural editing is for `language`. -/
def supports (s : Session) (language : String) : Bool :=
  s.languages.contains language

/-- Forgets the history, as when another document is shown. -/
def documentChanged (s : Session) : Session :=
  { s with expansion := .empty }

/-- Runs `op` against the host `h` and the clipboard `c`. -/
def run (s : Session) (op : Operation) (h : Host) (c : Clipboard) :
    Except Failure Outcome × Session × Host × Clipboard :=
  if !s.enabled || !s.supports h.buffer.language then (.ok .skipped, s, h, c)
  else
    match op with
    | .navigate m =>
      let (sel, h) := h.navigate fun d offset => m.target d offset
      (.ok (.selected sel), s, h, c)
    | .yank m =>
      match h.yank c fun d offset => m.target d offset with
      | (.ok (), c) => (.ok .copied, s, h, c)
      | (.error e, c) => (.error e, s, h, c)
    | .cut m =>
      let (result, h, c) := h.cut c fun d offset => m.target d offset
      (Host.outcomeOf result, s, h, c)
    | .expand =>
      let live := h.currentSelection
      let (sel, x, h) := s.expansion.expand h (h.document.expansion live.start live.stop)
      (.ok (.selected sel), { s with expansion := x }, h, c)
    | .contract =>
      let (sel?, x, h) := s.expansion.contract h
      (.ok (match sel? with
        | some sel => .selected sel
        | none => .unchanged), { s with expansion := x }, h, c)
    | .edit e =>
      let (result, h) := h.runEdit e.at? e.skipsIndent s.indentWidth
      (result, s, h, c)
    | .indent =>
      let (result, h) := h.indent s.indentWidth
      (Host.outcomeOf result, s, h, c)

end Session

end SexpEdit
