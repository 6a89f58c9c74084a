/-
Buffers.

A buffer is a text with a selection and its history. It is changed by transactions: a list of
`Op`s, all in offsets of the text before the transaction. `Op.arrange` puts the ops in order,
insertions before a deletion at the same offset; `Op.check` refuses ops that leave the text or
overlap; `Op.rewrite?` makes them by one `Delta` in bytes of the text before; `Op.carry` moves an
offset along. `Op.apply` makes them by characters, in one pass from left to right, and gives the same
text as `Op.rewrite?`.

History is kept as the texts at the starts of undo groups. A group opens with the first transaction
that changes the text and ends when a transaction asks for a stop.
-/
import SexpEdit.Delta
import SexpEdit.Selection

namespace SexpEdit

/-- One part of a transaction, in offsets of the text before it. -/
inductive Op where
  | insert (start : Nat) (text : List Char)
  | delete (start stop : Nat)
  deriving DecidableEq, Repr

/-- Why a transaction is refused. -/
inductive EditError where
  | rejected (reason : String)
  | outOfBounds (start stop length : Nat)
  deriving DecidableEq, Repr

/-- The text of an `EditError`. -/
def EditError.message : EditError → String
  | rejected reason => "Edit rejected by host: " ++ reason
  | outOfBounds start stop length =>
    "Edit range " ++ toString start ++ ".." ++ toString stop ++
      " is outside the document (length " ++ toString length ++ ")"

namespace Op

/-- Where an `Op` starts. -/
def start : Op → Nat
  | insert s _ => s
  | delete s _ => s

/-- Where the text it replaces ends. -/
def stop : Op → Nat
  | insert s _ => s
  | delete _ e => e

/-- The text that it puts in. -/
def inserted : Op → List Char
  | insert _ cs => cs
  | delete _ _ => []

/-- Whether an `Op` is a `delete`. -/
def isDeletion : Op → Bool
  | insert _ _ => false
  | delete _ _ => true

/-- Whether an `Op` changes nothing: an `insert` of no text, or a `delete` of an empty range. -/
def isNoop : Op → Bool
  | insert _ cs => cs.isEmpty
  | delete s e => e ≤ s

/-- Whether `a` comes before `b`, or is on a par with it: by start, and an insertion before a
deletion. -/
def before (a b : Op) : Bool :=
  a.start < b.start || (a.start == b.start && (!a.isDeletion || b.isDeletion))

/-- Puts `a` in front of the first of some ordered ops that it comes `before`. -/
def place (a : Op) : List Op → List Op
  | [] => [a]
  | b :: ops => if a.before b then a :: b :: ops else b :: place a ops

/-- The ops in the order of `before`; those on a par stay as they were given. -/
def arrange : List Op → List Op
  | [] => []
  | a :: ops => place a (arrange ops)

/-- Checks ordered ops against a text of some length, when the ops before them end at `last`. -/
def check (length last : Nat) : List Op → Except EditError Unit
  | [] => .ok ()
  | op :: ops =>
    if op.stop < op.start || length < op.stop then
      .error (.outOfBounds op.start op.stop length)
    else if op.start < last then
      .error (.rejected ("overlapping edits at " ++ toString op.start))
    else check length op.stop ops

/-- Makes ordered ops in a text that starts at offset `pos`. -/
def applyFrom (pos : Nat) (cs : List Char) : List Op → List Char
  | [] => cs
  | insert s new :: ops => cs.take (s - pos) ++ (new ++ applyFrom s (cs.drop (s - pos)) ops)
  | delete s e :: ops => cs.take (s - pos) ++ applyFrom e (cs.drop (e - pos)) ops

/-- The text that ordered ops make of `cs`, see `applyFrom`. -/
def apply (ops : List Op) (cs : List Char) : List Char :=
  applyFrom 0 cs ops

/-- Adds ops to a delta, at the bytes where their ends are in the text `cs` before the transaction;
those that do nothing are left out. -/
def addTo? (cs : List Char) (builder : Delta.Builder) : List Op → Option Delta.Builder
  | [] => some builder
  | op :: ops =>
    if op.isNoop then addTo? cs builder ops
    else
      match builder.replace? (Text.byteOffset cs op.start) (Text.byteOffset cs op.stop)
        op.inserted with
      | some builder => addTo? cs builder ops
      | none => none

/-- The text that ordered ops make of `cs` by one delta. -/
def rewrite? (ops : List Op) (cs : List Char) : Option (List Char) :=
  match addTo? cs { length := Text.byteLength cs } ops with
  | some builder => builder.build.text? cs
  | none => none

/-- How far an op moves `offset`. Text put in at an offset moves it; an offset inside deleted text
moves to its start. -/
def shift (offset : Nat) : Op → Int
  | insert s cs => if s ≤ offset then cs.length else 0
  | delete s e =>
    if e ≤ offset then -((e - s : Nat) : Int)
    else if s < offset then -((offset - s : Nat) : Int)
    else 0

/-- How far ops move an offset together: the sum of their `shift`s. -/
def totalShift (offset : Nat) : List Op → Int
  | [] => 0
  | op :: ops => shift offset op + totalShift offset ops

/-- Where ops move an offset, by `totalShift`; below zero it is zero. -/
def carry (ops : List Op) (offset : Nat) : Nat :=
  ((offset : Int) + totalShift offset ops).toNat

end Op

/-- Where a transaction ends the undo group. -/
structure UndoStops where
  before : Bool := false
  after : Bool := false
  deriving DecidableEq, Repr

/-- Joins the undo group that is open: no stop `before` and none `after`. -/
def UndoStops.join : UndoStops :=
  {}

/-- Ends the undo group after the transaction: a stop `after` only. -/
def UndoStops.checkpoint : UndoStops :=
  { after := true }

/-- A text being edited. -/
structure Buffer where
  language : String
  text : List Char
  selection : Selection := .caret 0
  /-- The range last asked to be shown. -/
  revealed : Option (Nat × Nat) := none
  /-- The texts that undoing goes back to, the latest first. -/
  past : List (List Char) := []
  /-- The texts that redoing goes forward to, the next first. -/
  future : List (List Char) := []
  /-- Whether the next change joins the latest undo step. -/
  groupOpen : Bool := false
  readOnly : Bool := false
  /-- How often the text has changed. -/
  version : Nat := 0
  deriving DecidableEq, Repr

namespace Buffer

/-- A buffer with a text and no history. -/
def ofText (language : String) (text : List Char) : Buffer :=
  { language, text }

/-- How many characters the text of a `Buffer` has. -/
def length (b : Buffer) : Nat :=
  b.text.length

/-- The text from `start` to `stop`, cut out by bytes; a `stop` before `start` counts as `start`. -/
def slice? (b : Buffer) (start stop : Nat) : Option (List Char) :=
  let first := Text.byteOffset b.text start
  let last := max (Text.byteOffset b.text stop) first
  Text.byteSlice? b.text first last

/-- The text from `start` to `stop`; empty when they are in the wrong order. -/
def slice (b : Buffer) (start stop : Nat) : List Char :=
  (b.slice? start stop).getD []

/-- How many steps `undo` can go back. -/
def undoDepth (b : Buffer) : Nat :=
  b.past.length

/-- The buffer with `text` after a step through history, which is now `past` and `future`. -/
def jump (b : Buffer) (text : List Char) (past future : List (List Char)) : Buffer :=
  { b with
    text, past, future
    groupOpen := false
    version := b.version + 1
    selection := b.selection.clamp text.length }

/-- Goes back to the latest text of `past`; `false` when there is none. -/
def undo (b : Buffer) : Bool × Buffer :=
  match b.past with
  | [] => (false, b)
  | text :: past => (true, b.jump text past (b.text :: b.future))

/-- Goes forward to the next text of `future`; `false` when there is none. -/
def redo (b : Buffer) : Bool × Buffer :=
  match b.future with
  | [] => (false, b)
  | text :: future => (true, b.jump text (b.text :: b.past) future)

/-- Takes on `text` and `selection`. The first change of a group records the text before it. -/
def renew (b : Buffer) (text : List Char) (selection : Selection) : Buffer :=
  { b with
    text, selection
    past := if b.groupOpen then b.past else b.text :: b.past
    future := []
    groupOpen := true
    version := b.version + 1 }

/-- Makes ordered ops that passed `Op.check`, at least one of which changes the text. -/
def commit (b : Buffer) (ops : List Op) : Buffer :=
  b.renew ((Op.rewrite? ops b.text).getD b.text)
    (.between (Op.carry ops b.selection.anchor) (Op.carry ops b.selection.cursor))

/-- Ends the undo group if `stop` is set. -/
def stopGroup (b : Buffer) (stop : Bool) : Buffer :=
  if stop then { b with groupOpen := false } else b

/-- Runs the transaction of `ops`. A `readOnly` buffer declines it, but `stops.after` still ends the
group. -/
def edit (b : Buffer) (stops : UndoStops) (ops : List Op) : Except EditError Bool × Buffer :=
  if b.readOnly then (.ok false, b.stopGroup stops.after)
  else
    let b := b.stopGroup stops.before
    let ops := Op.arrange ops
    match Op.check b.length 0 ops with
    | .error e => (.error e, b)
    | .ok () =>
      let b := if ops.all Op.isNoop then b else b.commit ops
      (.ok true, b.stopGroup stops.after)

end Buffer

end SexpEdit
