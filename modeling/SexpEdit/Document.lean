/-
Documents.

A document is a text with the tree read from it and all its nodes and tokens in place. Offsets
count characters; `Document.byteOffset` and `Document.charOffset` go over to UTF-8 bytes and back.

The queries that motions and edits are built on:

* `Document.innermost?` finds the innermost collection whose interior holds an offset;
* `Document.container` is that collection, or the whole document;
* `Document.leafAt?` finds the token that covers a character;
* `Document.isBalanced` tells whether a range cuts no form apart.
-/
import SexpEdit.Document.Form
import SexpEdit.Text.Bytes
import SexpEdit.Tree.Reader

namespace SexpEdit

/-- The text of `cs` from `start` to `stop`; empty when they are in the wrong order. -/
def Text.slice (cs : List Char) (start stop : Nat) : List Char :=
  (cs.take stop).drop start

/-- A text, its tree, and every node and token of the tree in place. -/
structure Document where
  text : List Char
  tree : Tree
  nodes : List Form
  leaves : List Leaf
  tree_eq : tree = Tree.parse text := by rfl
  nodes_eq : nodes = Form.within [] 0 tree := by rfl
  leaves_eq : leaves = Leaf.within [] 0 tree := by rfl

namespace Document

/-- Reads a text by `Tree.parse` and looks up its nodes and leaves. -/
def ofText (text : List Char) : Document :=
  let tree := Tree.parse text
  { text, tree, nodes := Form.within [] 0 tree, leaves := Leaf.within [] 0 tree }

/-- How many characters a `Document` has. -/
def length (d : Document) : Nat :=
  d.text.length

/-- The byte offset of a character offset, looked up in the table; past the end it is the
`Text.byteLength`. -/
def byteOffset (d : Document) (offset : Nat) : Nat :=
  (Text.byteStarts 0 d.text).get
    ⟨min offset d.length, Text.lt_length_byteStarts (Nat.min_le_right offset d.length)⟩

/-- The character offset of `byte`, an offset in bytes: how many characters start before it, where
the end of the text counts as one more start. -/
def charOffset (d : Document) (byte : Nat) : Nat :=
  ((Text.byteStarts 0 d.text).takeWhile (· < byte)).length

/-- The text from `start` to `stop`, cut out by bytes; `none` when they are in the wrong order. -/
def slice? (d : Document) (start stop : Nat) : Option (List Char) :=
  Text.byteSlice? d.text (d.byteOffset start) (d.byteOffset stop)

/-- The character at an offset of the `text`. -/
def charAt? (d : Document) (offset : Nat) : Option Char :=
  d.text[offset]?

/-- The `Form` of the whole document. -/
def root (d : Document) : Form :=
  match d.tree with
  | .leaf _ => Form.ofNode .root 0 [] []
  | .node k ts => Form.ofNode k 0 ts []

/-- Every node that is a form by `Kind.isForm`, in the order of the text. -/
def forms (d : Document) : List Form :=
  d.nodes.filter (·.kind.isForm)

/-- The innermost collection whose interior `holds` the offset: the last to start. -/
def innermost? (d : Document) (offset : Nat) : Option Form :=
  (d.nodes.filter fun f => f.isCollection && f.holds offset).getLast?

/-- The innermost container at an offset: the collection `innermost?`, or the document. -/
def container (d : Document) (offset : Nat) : Form :=
  (d.innermost? offset).getD d.root

/-- The token that covers the character at an offset. -/
def leafAt? (d : Document) (offset : Nat) : Option Leaf :=
  d.leaves.find? fun l => l.start ≤ offset && offset < l.stop

/-- Whether `start..stop` may be cut out or wrapped: every form that overlaps it lies inside it, or
has it in its interior. A string keeps its quotes out of the range, an atom has no delimiters. -/
def isBalanced (d : Document) (start stop : Nat) : Bool :=
  d.forms.all fun f =>
    if f.start < stop && start < f.stop then
      let contained := start ≤ f.start && f.stop ≤ stop
      let enclosing :=
        if f.isCollection then f.innerStart ≤ start && stop ≤ f.innerStop
        else if f.isString then f.start < start && stop < f.stop
        else f.start ≤ start && stop ≤ f.stop
      contained || enclosing
    else true

end Document

end SexpEdit
