/-
Changes and commands.

An edit is described by `Change`s: a kind, a start, and a payload. A change is well formed when an
insertion carries text and a deletion a length; `Change.command` turns such a change into a
`Command` and refuses any other. Commands apply one after another: each offset counts in the text
that the commands before it left.
-/
import SexpEdit.Text.Quoted

namespace SexpEdit

/-- Whether a `Change` puts text in or takes it out. -/
inductive Change.Kind where
  | insert
  | delete
  deriving DecidableEq, Repr

/-- What a `Change` carries: the text of an insertion, or the length of a deletion. -/
inductive Change.Payload where
  | text (chars : List Char)
  | length (count : Nat)
  deriving DecidableEq, Repr

/-- One step of an edit. -/
structure Change where
  kind : Change.Kind
  start : Nat
  payload : Change.Payload
  deriving DecidableEq, Repr

/-- One step of an edit whose payload fits its kind. -/
inductive Command where
  | insert (start : Nat) (text : List Char)
  /-- Take out so many characters from an offset on. -/
  | delete (start length : Nat)
  deriving DecidableEq, Repr

namespace Change

/-- The `Change` that puts `text` in at `start`. -/
def insertion (start : Nat) (text : List Char) : Change :=
  ⟨.insert, start, .text text⟩

/-- The `Change` that takes `length` characters out from `start` on. -/
def deletion (start length : Nat) : Change :=
  ⟨.delete, start, .length length⟩

/-- The word for a `Change.Kind` in messages. -/
def Kind.word : Kind → String
  | .insert => "Insert"
  | .delete => "Delete"

/-- The `Change.Payload` as it stands in messages. -/
def Payload.describe : Payload → String
  | .text cs => "Text(" ++ String.ofList (Text.quote cs) ++ ")"
  | .length n => "Length(" ++ toString n ++ ")"

/-- A change whose payload does not fit its kind. -/
structure Mismatch where
  change : Change
  deriving DecidableEq, Repr

/-- The text of a `Mismatch`: the change, and what it carries. -/
def Mismatch.message (m : Mismatch) : String :=
  m.change.kind.word ++ " change at " ++ toString m.change.start ++ " carries " ++
    m.change.payload.describe

/-- The `Command` of a change whose payload fits its kind; any other is a `Mismatch`. -/
def command (c : Change) : Except Mismatch Command :=
  match c.kind, c.payload with
  | .insert, .text cs => .ok (.insert c.start cs)
  | .delete, .length n => .ok (.delete c.start n)
  | _, _ => .error ⟨c⟩

/-- The commands that changes stand for; the first that does not fit is refused with a
`Mismatch`. -/
def commands : List Change → Except Mismatch (List Command)
  | [] => .ok []
  | c :: cs =>
    match c.command with
    | .error m => .error m
    | .ok first =>
      match commands cs with
      | .error m => .error m
      | .ok rest => .ok (first :: rest)

end Change

namespace Command

/-- Where a `Command` starts. -/
def start : Command → Nat
  | insert s _ => s
  | delete s _ => s

/-- Where the text it touches ends: after the inserted text, or after the deleted one. -/
def stop : Command → Nat
  | insert s cs => s + cs.length
  | delete s n => s + n

/-- Takes out the text between `a` and `b`, in either order. -/
def deleteSpan (a b : Nat) : Command :=
  .delete (min a b) (max a b - min a b)

/-- A `Command` in words. -/
def describe : Command → String
  | insert s cs => "insert " ++ String.ofList (Text.quote cs) ++ " at " ++ toString s
  | delete s n => "delete " ++ toString n ++ " at " ++ toString s

/-- From the first start to the last end of what commands touch. -/
def touched? : List Command → Option (Nat × Nat)
  | [] => none
  | c :: cs =>
    match touched? cs with
    | none => some (c.start, c.stop)
    | some (a, b) => some (min c.start a, max c.stop b)

end Command

end SexpEdit
