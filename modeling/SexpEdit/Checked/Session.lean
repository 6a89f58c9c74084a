/-
Sessions on words.

The transactions of a buffer, the steps of an operation and `Session.run`, with every sum,
difference, index and slice checked.  Carrying the selection along is where the size of a word
shows: an offset is moved as a signed number, so one above `maxSigned` counts from below zero, and a
sum that leaves the word is a fault.

`Checked.run` is what batches run.
-/
import SexpEdit.Checked.Edit
import SexpEdit.Session

namespace SexpEdit.Checked

/-! ### Transactions -/

/-- `Op.shift`. -/
def shift (offset : Nat) : Op → Checked Int
  | .insert s cs => pure (if s ≤ offset then signed cs.length else 0)
  | .delete s e => do
    if e ≤ offset then return -signed (← minus e s)
    else if s < offset then return -signed (← minus offset s)
    else return 0

/-- Moves an offset along with ops, when those before them have moved it to `moved`. One that would
be negative is zero. -/
def carryFrom (offset : Nat) (moved : Int) : List Op → Checked Nat
  | [] => pure moved.toNat
  | op :: ops => do carryFrom offset (← signedPlus moved (← shift offset op)) ops

/-- `Op.carry`. -/
def carry (ops : List Op) (offset : Nat) : Checked Nat :=
  carryFrom offset (signed offset) ops

/-- `Op.rewrite?`, which must make a text. -/
def rewrite (ops : List Op) (cs : List Char) : Checked (List Char) :=
  match Op.rewrite? ops cs with
  | some text => pure text
  | none => throw .noDelta

/-- `Buffer.commit`. -/
def commit (b : Buffer) (ops : List Op) : Checked Buffer := do
  let text ← rewrite ops b.text
  let anchor ← carry ops b.selection.anchor
  let cursor ← carry ops b.selection.cursor
  return b.renew text (.between anchor cursor)

/-- `Buffer.edit`. The ops are worked out when they are needed: a read-only buffer declines the
transaction before it looks at them. -/
def editBuffer (b : Buffer) (stops : UndoStops) (ops : Checked (List Op)) :
    Checked (Except EditError Bool × Buffer) := do
  if b.readOnly then return (.ok false, b.stopGroup stops.after)
  else
    let b := b.stopGroup stops.before
    let ops := Op.arrange (← ops)
    match Op.check b.length 0 ops with
    | .error e => return (.error e, b)
    | .ok () =>
      let b ← (if ops.all Op.isNoop then pure b else commit b ops)
      return (.ok true, b.stopGroup stops.after)

/-! ### Hosts -/

/-- `Command.op`. -/
def op : Command → Checked Op
  | .insert s cs => pure (.insert s cs)
  | .delete s n => do return .delete s (← plus s n)

/-- `Host.edit`. -/
def editHost (h : Host) (stops : UndoStops) (ops : Checked (List Op)) :
    Checked (Except EditError Bool × Host) := do
  let calls := h.calls + 1
  let verdict := match h.gate with
    | none => Verdict.pass
    | some g => g.verdict calls stops
  match verdict with
  | .reject reason => return (.error (.rejected reason), { h with calls })
  | .decline => return (.ok false, { h with calls })
  | .pass =>
    let (result, buffer) ← editBuffer h.buffer stops ops
    return (result, { h with buffer, calls })

/-- `Host.applyAll`. -/
def applyAll (h : Host) : List Command → Checked (Except EditError Bool × Host)
  | [] => pure (.ok true, h)
  | c :: cs => do
    match ← editHost h .join (do return [← op c]) with
    | (.ok true, h) => applyAll h cs
    | stopped => return stopped

/-- `Host.undoStop`. -/
def undoStop (h : Host) : Checked (Except EditError Bool × Host) :=
  editHost h .checkpoint (pure [.insert 0 []])

/-- `Host.closeOnFailure`. -/
def closeOnFailure {ε : Type} (result : Except ε Bool) (h : Host) : Checked Host :=
  match result with
  | .ok true => pure h
  | _ => do return (← undoStop h).2

/-- `Host.applyGrouped`. -/
def applyGrouped (h : Host) (cs : List Command) : Checked (Except EditError Bool × Host) := do
  let (result, h) ← applyAll h cs
  let h ← closeOnFailure result h
  match result with
  | .ok true => undoStop h
  | _ => return (result, h)

/-- `Host.conclude`. -/
def conclude (result : Except Failure Bool) (h : Host) : Checked (Except Failure Bool × Host) :=
  match result with
  | .ok true => do
    let (stopped, h) ← undoStop h
    return (Host.liftEdit stopped, h)
  | _ => do return (result, ← closeOnFailure result h)

/-- `Host.applyChanges`. -/
def applyChanges (h : Host) (changes : List Change) : Checked (Except Failure Bool × Host) :=
  match Change.commands changes with
  | .error m => pure (.error (.mismatch m), h)
  | .ok cs => do
    let (result, h) ← applyAll h cs
    return (Host.liftEdit result, h)

/-- `Command.stop`. -/
def stop : Command → Checked Nat
  | .insert s cs => plus s cs.length
  | .delete s n => plus s n

/-- `Command.touched?`. -/
def touched : List Command → Checked (Option (Nat × Nat))
  | [] => pure none
  | c :: cs => do
    let last ← stop c
    return match ← touched cs with
      | none => some (c.start, last)
      | some (a, b) => some (min c.start a, max last b)

/-! ### The steps of an operation -/

/-- `Host.navigate`. -/
def navigate (h : Host) (motion : Document → Nat → Checked Destination) :
    Checked (Selection × Host) := do
  return h.selectDestination (← motion (← document h.text) h.currentSelection.cursor)

/-- `Host.reach`. -/
def reach (h : Host) (motion : Document → Nat → Checked Destination) : Checked (Nat × Nat) := do
  let cursor := h.currentSelection.cursor
  return (← motion (← document h.text) cursor).ends cursor

/-- `Host.slice`; a buffer with no gate must be able to cut its text. -/
def sliceHost (h : Host) (start stop : Nat) : Checked (List Char) :=
  match h.gate, h.buffer.slice? start stop with
  | none, some cs => pure cs
  | none, none => throw (.noSlice start stop h.length)
  | some _, _ => pure (h.slice start stop)

/-- `Clipboard.copySpan`. -/
def copySpan (c : Clipboard) (h : Host) (a b : Nat) :
    Checked (Except ClipboardError Clipboard) := do
  return c.write (← sliceHost h (min a b) (max a b))

/-- `Clipboard.cutSpan`. -/
def cutSpan (c : Clipboard) (h : Host) (a b : Nat) :
    Checked (Except Failure Bool × Host × Clipboard) := do
  match ← copySpan c h a b with
  | .error e => return (.error (.clipboard e), h, c)
  | .ok c =>
    return match ← applyAll h [.delete (min a b) (← minus (max a b) (min a b))] with
      | (.ok applied, h) => (.ok applied, h, c)
      | (.error e, h) => (.error (.edit e), h, c)

/-- `Host.yank`. -/
def yank (h : Host) (c : Clipboard) (motion : Document → Nat → Checked Destination) :
    Checked (Except Failure Unit × Clipboard) := do
  let (a, b) ← reach h motion
  return match ← copySpan c h a b with
    | .ok c => (.ok (), c)
    | .error e => (.error (.clipboard e), c)

/-- `Host.cut`. -/
def cut (h : Host) (c : Clipboard) (motion : Document → Nat → Checked Destination) :
    Checked (Except Failure Bool × Host × Clipboard) := do
  let (a, b) ← reach h motion
  let (result, h, c) ← cutSpan c h a b
  let (result, h) ← conclude result h
  return (result, h, c)

/-- `Host.reindent`. -/
def reindent (h : Host) (start stop width : Nat) : Checked (Except Failure Bool × Host) := do
  let e ← indent (← document h.text) start { otherEnd := some stop, indentWidth := width }
  applyChanges h e.changes

/-- `Host.indent`. -/
def indentSelection (h : Host) (width : Nat) : Checked (Except Failure Bool × Host) := do
  let s := h.currentSelection
  let (result, h) ← reindent h s.start s.stop width
  conclude result h

/-- `Host.settleLines`. -/
def settleLines (h : Host) (cs : List Command) (width : Nat) :
    Checked (Except Failure Bool × Host) := do
  match ← touched cs with
  | none => return (.ok true, h)
  | some (start, stop) => reindent h start stop width

/-- `Host.perform`. -/
def perform (h : Host) (e : Edit) (skipsIndent : Bool) (width : Nat) :
    Checked (Except Failure Outcome × Host) := do
  match Change.commands e.changes with
  | .error m => return (.error (.mismatch m), h)
  | .ok cs =>
    match ← applyAll h cs with
    | (.ok true, h) =>
      let h := (h.selectDestination (.point e.caret)).2
      let (result, h) ← (if skipsIndent then pure (.ok true, h) else settleLines h cs width)
      let (result, h) ← conclude result h
      return (Host.outcomeOf result, h)
    | (result, h) => return (Host.outcomeOf (Host.liftEdit result), ← closeOnFailure result h)

/-- `Host.runEdit`. -/
def runEdit (h : Host) (editor : Document → Nat → Edit.Options → Checked (Option Edit))
    (skipsIndent : Bool) (width : Nat) : Checked (Except Failure Outcome × Host) := do
  let s := h.currentSelection
  let options : Edit.Options :=
    { otherEnd := if s.start = s.stop then none else some s.stop, indentWidth := width }
  match ← editor (← document h.text) s.start options with
  | none => return (.ok .unchanged, h)
  | some e =>
    if e.changes.isEmpty then
      let (s, h) := h.selectDestination (.point e.caret)
      return (.ok (.selected s), h)
    else perform h e skipsIndent width

/-! ### Sessions -/

/-- `Session.run`. -/
def run (s : Session) (op : Operation) (h : Host) (c : Clipboard) :
    Checked (Except Failure Outcome × Session × Host × Clipboard) := do
  if !s.enabled || !s.supports h.buffer.language then return (.ok .skipped, s, h, c)
  else
    match op with
    | .navigate m =>
      let (sel, h) ← navigate h fun d offset => target d offset m
      return (.ok (.selected sel), s, h, c)
    | .yank m =>
      return match ← yank h c fun d offset => target d offset m with
        | (.ok (), c) => (.ok .copied, s, h, c)
        | (.error e, c) => (.error e, s, h, c)
    | .cut m =>
      let (result, h, c) ← cut h c fun d offset => target d offset m
      return (Host.outcomeOf result, s, h, c)
    | .expand =>
      let live := h.currentSelection
      let wider ← expansion (← document h.text) live.start live.stop
      let (sel, x, h) := s.expansion.expand h wider
      return (.ok (.selected sel), { s with expansion := x }, h, c)
    | .contract =>
      -- the document is read for every operation, also where it is not looked at
      let _ ← document h.text
      let (sel?, x, h) := s.expansion.contract h
      return (.ok (match sel? with
        | some sel => .selected sel
        | none => .unchanged), { s with expansion := x }, h, c)
    | .edit e =>
      let (result, h) ← runEdit h (edit e) e.skipsIndent s.indentWidth
      return (result, s, h, c)
    | .indent =>
      let (result, h) ← indentSelection h s.indentWidth
      return (Host.outcomeOf result, s, h, c)

end SexpEdit.Checked
