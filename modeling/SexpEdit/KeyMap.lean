/-
Key bindings.

A chord is a key with its modifiers, and a `KeyMap` says which action it stands for. Control with a
letter is about the file and the history. The structural bindings, which can be left out, follow
the usual ones: alt with a letter moves by form, the same letter in upper case copies, and control
and alt together cut. What is left is plain typing and moving.

`CursorMove.target` says where a plain move goes.
-/
import SexpEdit.Operation
import SexpEdit.Selection
import SexpEdit.Text.Lines

namespace SexpEdit

/-- A key, without the modifiers of a `Chord`. -/
inductive Key where
  | char (c : Char)
  | enter
  | escape
  | tab
  | backTab
  | backspace
  | delete
  | left
  | right
  | up
  | down
  | home
  | endKey
  | pageUp
  | function (number : Nat)
  deriving DecidableEq, Repr

/-- A key with the modifiers held. -/
structure Chord where
  key : Key
  control : Bool := false
  alt : Bool := false
  shift : Bool := false
  deriving DecidableEq, Repr

/-- A plain move of the cursor. -/
inductive CursorMove where
  | left
  | right
  | up
  | down
  | lineStart
  | lineEnd
  deriving DecidableEq, Repr

/-- What a chord stands for. -/
inductive Action where
  | run (op : Operation)
  | insert (c : Char)
  | newline
  | move (motion : CursorMove) (extend : Bool)
  | deleteBackward
  | deleteForward
  | undo
  | redo
  | paste
  | save
  | quit
  | toggleStructural
  | openPrompt
  deriving DecidableEq, Repr

namespace Chord

/-- Control without alt, on a letter. -/
def controlBinding? (k : Chord) : Option Action :=
  if !k.control || k.alt then none
  else
    match k.key with
    | .char 'q' => some .quit
    | .char 's' => some .save
    | .char 'z' => some .undo
    | .char 'y' => some .redo
    | .char 'v' => some .paste
    | .char 'p' => some .toggleStructural
    | .char 'x' => some .openPrompt
    | _ => none

/-- The `Motion` of the letter `c`, in either case. -/
def motion? (c : Char) : Option Motion :=
  match c.toLower with
  | 'f' => some .forward
  | 'b' => some .backward
  | 'd' => some .down
  | 'u' => some .up
  | 'e' => some .out
  | 'a' => some .topLevel
  | _ => none

/-- The operation of alt with the character `c`. -/
def letterBinding? (c : Char) (control : Bool) : Option Operation :=
  match motion? c with
  | some m => some (if control then .cut m else if c.isUpper then .yank m else .navigate m)
  | none =>
    match c with
    | 'w' => some .expand
    | 'W' => some .contract
    | 'i' => some .indent
    | 's' => some (.edit .splice)
    | 'S' => some (.edit .split)
    | 'k' => some (.edit (.kill false))
    | 't' => some (.edit .transpose)
    | '(' => some (.edit (.wrap .parens))
    | '[' => some (.edit (.wrap .square))
    | '\x7b' => some (.edit (.wrap .curly))
    | _ => none

/-- The `Operation` that a `Chord` is bound to for structural editing. -/
def structuralBinding? (k : Chord) : Option Operation :=
  match k.key with
  | .char c => if k.alt then letterBinding? c k.control else none
  | .tab => some .indent
  | .backspace => some (.edit (if k.alt then .kill true else .delete true))
  | .delete => some (.edit (.delete false))
  | .right => if k.alt then some (.edit (if k.shift then .barf true else .slurp false)) else none
  | .left => if k.alt then some (.edit (if k.shift then .slurp true else .barf false)) else none
  | .up => if k.alt then some (.edit (.spliceKill true)) else none
  | .down => if k.alt then some (.edit (.spliceKill false)) else none
  | _ => none

/-- Typing and moving; neither control nor alt is held. -/
def textBinding? (k : Chord) : Option Action :=
  if k.control || k.alt then none
  else
    match k.key with
    | .char c => some (.insert c)
    | .enter => some .newline
    | .backspace => some .deleteBackward
    | .delete => some .deleteForward
    | .left => some (.move .left k.shift)
    | .right => some (.move .right k.shift)
    | .up => some (.move .up k.shift)
    | .down => some (.move .down k.shift)
    | .home => some (.move .lineStart k.shift)
    | .endKey => some (.move .lineEnd k.shift)
    | _ => none

end Chord

/-- Which bindings there are. -/
structure KeyMap where
  /-- Whether the structural bindings are among them. -/
  structural : Bool
  deriving DecidableEq, Repr

namespace KeyMap

/-- The `Action` of a `Chord`: control keys first, then structural ones if they are on, then plain
ones. -/
def resolve? (m : KeyMap) (k : Chord) : Option Action :=
  match k.controlBinding? with
  | some a => some a
  | none =>
    match if m.structural then k.structuralBinding? else none with
    | some op => some (.run op)
    | none => k.textBinding?

/-- The line that shows the keys of a `KeyMap`. -/
def help (m : KeyMap) : String :=
  "^Q quit | ^S save | ^Z/^Y undo/redo | ^P toggle | ^X command" ++
    if m.structural then
      " | M-f/b/d/u/e/a move | M-←/→ slurp/barf | M-w/W expand/contract"
    else ""

end KeyMap

namespace CursorMove

/-- Where `m` takes the cursor of `s` in `cs`. Up and down keep the column as far as the line goes;
there is nothing above the first line but the start of the text. -/
def target (cs : List Char) (s : Selection) (m : CursorMove) : Nat :=
  let (line, column) := Text.lineColumn cs s.cursor
  match m with
  | left => s.cursor - 1
  | right => min (s.cursor + 1) cs.length
  | up => if line = 0 then 0 else Text.offsetOf cs (line - 1) column
  | down => Text.offsetOf cs (line + 1) column
  | lineStart => Text.offsetOf cs line 0
  | lineEnd => Text.offsetOf cs line cs.length

end CursorMove

end SexpEdit
