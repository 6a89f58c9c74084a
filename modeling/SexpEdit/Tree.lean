/-
Lossless trees.

A tree keeps every token of the text it was read from, blanks and comments included. Functions
on trees come in twins: one on a tree and one on a row of trees. `Tree.leaves` is the view that
ties a tree to its text.
-/
import SexpEdit.Token

namespace SexpEdit

/-- A token, or a node over a row of trees. -/
inductive Tree where
  | leaf (token : Token)
  | node (kind : Kind) (children : List Tree)

namespace Tree

/-- The `Kind` of a leaf's token, or of a node. -/
def kind : Tree → Kind
  | leaf t => t.kind
  | node k _ => k

mutual

/-- The tokens of a tree, in the order of the text. -/
def leaves : Tree → List Token
  | leaf t => [t]
  | node _ ts => rowLeaves ts

/-- `leaves` of trees in a row. -/
def rowLeaves : List Tree → List Token
  | [] => []
  | t :: ts => leaves t ++ rowLeaves ts

end

/-- The text of a `Tree`: that of its `leaves`. -/
def text (t : Tree) : List Char :=
  t.leaves.flatMap Token.text

mutual

/-- The number of characters of a tree. -/
def width : Tree → Nat
  | leaf t => t.text.length
  | node _ ts => rowWidth ts

/-- `width` of trees in a row. -/
def rowWidth : List Tree → Nat
  | [] => 0
  | t :: ts => width t + rowWidth ts

end

mutual

/-- How many bytes the text of a `Tree` has. -/
def byteWidth : Tree → Nat
  | leaf t => Text.byteLength t.text
  | node _ ts => rowByteWidth ts

/-- `byteWidth` of trees in a row. -/
def rowByteWidth : List Tree → Nat
  | [] => 0
  | t :: ts => byteWidth t + rowByteWidth ts

end

mutual

/-- The first token of a tree, however deep. -/
def firstToken? : Tree → Option Token
  | leaf t => some t
  | node _ ts => rowFirstToken? ts

/-- The first token of a row of trees; nodes without tokens are passed over. -/
def rowFirstToken? : List Tree → Option Token
  | [] => none
  | t :: ts =>
    match firstToken? t with
    | some tok => some tok
    | none => rowFirstToken? ts

end

/-- One element of a tree as a row of its outline. -/
structure Entry where
  /-- How many nodes are around the element. -/
  depth : Nat
  kind : Kind
  /-- Byte offset where the element starts. -/
  start : Nat
  stop : Nat
  /-- The text of a token; nothing for a node. -/
  text : Option (List Char)

mutual

/-- The elements of a tree in preorder, when it stands at `depth` and at byte `start`. -/
def outline (depth start : Nat) : Tree → List Entry
  | leaf t => [⟨depth, t.kind, start, start + Text.byteLength t.text, some t.text⟩]
  | node k ts =>
    ⟨depth, k, start, start + rowByteWidth ts, none⟩ :: rowOutline (depth + 1) start ts

/-- `outline` of trees in a row. -/
def rowOutline (depth start : Nat) : List Tree → List Entry
  | [] => []
  | t :: ts => outline depth start t ++ rowOutline depth (start + byteWidth t) ts

end

/-- A node that is not finished: its kind, and its children so far, last first. -/
structure Frame where
  kind : Kind
  children : List Tree

namespace Frame

/-- Adds a child to a `Frame`. -/
def push (f : Frame) (t : Tree) : Frame :=
  { f with children := t :: f.children }

/-- The node that a `Frame` becomes. -/
def close (f : Frame) : Tree :=
  .node f.kind f.children.reverse

end Frame

/-- A tree under construction: the finished trees that stand in no open node, last first, and the
open nodes, innermost first. -/
structure Scaffold where
  top : List Tree
  frames : List Frame

namespace Scaffold

/-- A `Scaffold` with nothing in it. -/
def empty : Scaffold :=
  ⟨[], []⟩

/-- Adds the finished tree `t` to the innermost open node. -/
def attach (s : Scaffold) (t : Tree) : Scaffold :=
  match s.frames with
  | [] => { s with top := t :: s.top }
  | f :: fs => { s with frames := f.push t :: fs }

/-- Opens a node of kind `k` inside the innermost open one. -/
def enter (s : Scaffold) (k : Kind) : Scaffold :=
  { s with frames := ⟨k, []⟩ :: s.frames }

end Scaffold

end Tree

end SexpEdit
