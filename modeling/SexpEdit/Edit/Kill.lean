/-
Edits that take text away.

* `Document.kill?` takes the rest of a form away, or a selection that cuts no form apart;
* `Document.spliceKill?` takes away what is on one side of the offset in the collection around it,
  and the delimiters with it;
* `Document.delete?` takes one character away, but steps over a delimiter whose partner would be
  left alone, and takes both delimiters when there is nothing between them.
-/
import SexpEdit.Edit

namespace SexpEdit.Document

/-- Takes away the text from `start` to `stop`, if that cuts no form apart. -/
def killRegion? (d : Document) (start stop : Nat) : Option Edit :=
  if d.isBalanced start stop then some ⟨[.deletion start (stop - start)], start⟩ else none

/-- Takes away the text from the offset to the end of the next form, or back to the start of the
form before when `o.backward`. Inside a string its quotes stay. -/
def kill? (d : Document) (offset : Nat) (o : Edit.Options) : Option Edit :=
  match o.region? offset with
  | some (start, stop) => d.killRegion? start stop
  | none =>
    let forms := (d.container offset).forms
    if o.backward then
      match (forms.filter fun f => f.start < offset).getLast? with
      | none => none
      | some f =>
        let start := if f.isString && offset < f.stop then f.start + 1 else f.start
        if start < offset then some ⟨[.deletion start (offset - start)], start⟩ else none
    else
      match forms.find? fun f => offset < f.stop with
      | none => none
      | some f =>
        let stop := if f.isTerminatedString && f.start < offset then f.stop - 1 else f.stop
        if offset < stop then some ⟨[.deletion offset (stop - offset)], offset⟩ else none

/-- Takes away what the collection around the offset holds after it, or before it when `backward`,
and the delimiters. Inside a form the cut is at the offset, else at the nearest form on the other
side. -/
def spliceKill? (d : Document) (offset : Nat) (backward : Bool) : Option Edit :=
  (d.innermost? offset).map fun list =>
    let forms := list.forms
    let inside := (Form.around? forms offset).isSome
    if backward then
      let right :=
        if inside then offset
        else match Form.firstAfter? forms offset with
          | some f => f.start
          | none => list.innerStop
      let closer :=
        if list.isClosed then [Change.deletion list.innerStop list.closing.length] else []
      ⟨closer ++ [.deletion list.start (right - list.start)], list.start⟩
    else
      let left :=
        if inside then offset
        else match Form.lastBefore? forms offset with
          | some f => f.stop
          | none => list.innerStart
      ⟨[.deletion left (list.stop - left), .deletion list.start list.opening.length],
        left - list.opening.length⟩

/-- What becomes of a delimiter that is to be deleted. -/
inductive DelimiterFate where
  /-- It goes with its partner, which is next to it: `length` characters from `start`. -/
  | withPartner (start length : Nat)
  /-- It has no partner and goes alone. -/
  | alone
  /-- It stays: something is between it and its partner. -/
  | stays
  deriving DecidableEq, Repr

/-- The delimiter at `offset` and its `DelimiterFate`; `none` when there is none there. -/
def delimiterFate? (d : Document) (offset : Nat) : Option (Kind × DelimiterFate) :=
  match d.leafAt? offset with
  | none => none
  | some leaf =>
    if leaf.kind.isOpener || leaf.kind.isCloser then
      match leaf.parent?.filter Form.isCollection with
      | none => some (leaf.kind, .alone)
      | some list =>
        if !list.isClosed then some (leaf.kind, .alone)
        else if list.innerStart = list.innerStop then
          some (leaf.kind, .withPartner list.start list.length)
        else some (leaf.kind, .stays)
    else none

/-- The string that the character at an offset is in, if `leafAt?` finds one. -/
def stringAt? (d : Document) (offset : Nat) : Option Leaf :=
  (d.leafAt? offset).filter fun l => l.kind.isString

/-- The `Edit` that takes one character out. -/
def dropChar (offset : Nat) : Edit :=
  ⟨[.deletion offset 1], offset⟩

/-- Takes away the character at `pos`. Of delimiters an empty pair goes as a whole and one without a
partner on its own; any other stays, and the caret goes `aside`. The quotes of a string stay, unless
it is empty, and an escape in it goes as a whole, from where `escape` says that it starts. -/
def removeAt (d : Document) (pos : Nat) (aside : Kind → Nat) (escape : Leaf → Option Nat) : Edit :=
  match d.delimiterFate? pos with
  | some (_, .withPartner start n) => ⟨[.deletion start n], start⟩
  | some (_, .alone) => dropChar pos
  | some (k, .stays) => .moved (aside k)
  | none =>
    match d.stringAt? pos with
    | none => dropChar pos
    | some s =>
      if s.kind = .string && s.stop - s.start = 2 then ⟨[.deletion s.start 2], s.start⟩
      else if pos = s.start then .moved (pos + 1)
      else if s.kind = .string && pos = s.stop - 1 then .moved pos
      else
        match escape s with
        | some start => ⟨[.deletion start 2], start⟩
        | none => dropChar pos

/-- Takes away the character after the offset, as `removeAt` does. -/
def deleteForward? (d : Document) (offset : Nat) : Option Edit :=
  if d.length ≤ offset then none
  else some (d.removeAt offset (fun k => if k.isOpener then offset + 1 else offset) fun s =>
    if d.charAt? offset = some '\\' && offset + 1 < s.stop then some offset else none)

/-- Takes away the character before the offset, as `removeAt` does. -/
def deleteBackward? (d : Document) (offset : Nat) : Option Edit :=
  if offset = 0 || d.length < offset then none
  else
    let pos := offset - 1
    some (d.removeAt pos (fun k => if k.isCloser then pos else offset) fun s =>
      if s.start + 1 < pos && d.charAt? (pos - 1) = some '\\' then some (pos - 1) else none)

/-- Takes away one character, or by `killRegion?` a selection that cuts no form apart. -/
def delete? (d : Document) (offset : Nat) (o : Edit.Options) : Option Edit :=
  match o.region? offset with
  | some (start, stop) => d.killRegion? start stop
  | none => if o.backward then d.deleteBackward? offset else d.deleteForward? offset

end SexpEdit.Document
