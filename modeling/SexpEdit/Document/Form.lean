/-
Forms in place.

A `Form` is a node of a tree together with where it stands: its character offsets, and the nodes
around it, innermost first. From that follow its delimiters, its interior, its child forms and its
neighbours. A reader prefix and the form it applies to move as one, so `Form.outermost` widens a
form by the prefixes on it and `Form.asCollection?` looks through them.
-/
import SexpEdit.Tree

namespace SexpEdit

/-- A node and the characters it covers. -/
structure Site where
  kind : Kind
  start : Nat
  /-- Offset just past the last character. -/
  stop : Nat
  children : List Tree
  stop_eq : stop = start + Tree.rowWidth children := by rfl

/-- A node, the characters it covers, and the nodes around it, innermost first. -/
structure Form extends Site where
  around : List Site

/-- A node of `kind` in place, when it starts at `start` and has `children`. -/
def Site.ofNode (kind : Kind) (start : Nat) (children : List Tree) : Site :=
  { kind, start, stop := start + Tree.rowWidth children, children }

namespace Form

/-- A node of `kind` in place, when it starts at `start` and has the nodes `around` it. -/
def ofNode (kind : Kind) (start : Nat) (children : List Tree) (around : List Site) : Form :=
  { Site.ofNode kind start children with around }

mutual

/-- Every node of a tree in preorder, when the tree starts at `start` inside `around`. -/
def within (around : List Site) (start : Nat) : Tree → List Form
  | .leaf _ => []
  | .node k ts =>
    ofNode k start ts around :: rowWithin (Site.ofNode k start ts :: around) start ts

/-- `within` for trees in a row. -/
def rowWithin (around : List Site) (start : Nat) : List Tree → List Form
  | [] => []
  | t :: ts => within around start t ++ rowWithin around (start + t.width) ts

end

/-- The nodes of a row of trees, not those inside them. -/
def inRow (around : List Site) (start : Nat) : List Tree → List Form
  | [] => []
  | .leaf t :: ts => inRow around (start + t.text.length) ts
  | .node k cs :: ts =>
    let f := ofNode k start cs around
    f :: inRow around f.stop ts

/-- How many characters a `Form` has. -/
def length (f : Form) : Nat :=
  f.stop - f.start

/-- The text of a `Form`: that of its leaves. -/
def text (f : Form) : List Char :=
  (Tree.rowLeaves f.children).flatMap Token.text

/-- The `Kind` of the first token, however deep. -/
def firstKind? (f : Form) : Option Kind :=
  (Tree.rowFirstToken? f.children).map Token.kind

/-- An atom whose token satisfies `p`. -/
def isAtomOf (f : Form) (p : Kind → Bool) : Bool :=
  f.kind == .atom && f.firstKind?.any p

/-- A string, with or without its closing quote. -/
def isString (f : Form) : Bool :=
  f.isAtomOf Kind.isString

/-- A string with its closing quote, see `isAtomOf`. -/
def isTerminatedString (f : Form) : Bool :=
  f.isAtomOf (· == .string)

/-- A symbol, keyword or number. -/
def isSymbol (f : Form) : Bool :=
  f.isAtomOf (· == .symbol)

/-- Whether the `kind` of a form is that of a list, vector or map. -/
def isCollection (f : Form) : Bool :=
  f.kind.isCollection

/-- Whether the form starts with an opener and its last element is the `Kind.closer?` of that
opener. -/
def isClosed (f : Form) : Bool :=
  match f.firstKind?.bind Kind.closer?, f.children.getLast? with
  | some c, some (.leaf t) => t.kind == c
  | _, _ => false

/-- The opening delimiter of a `Form`, by its `kind`. -/
def opening (f : Form) : List Char :=
  f.kind.opening

/-- The closing delimiter of a `Form`, by its `kind`. -/
def closing (f : Form) : List Char :=
  f.kind.closing

/-- Where the interior starts: after the opening delimiter. -/
def innerStart (f : Form) : Nat :=
  f.start + f.opening.length

/-- Where the interior ends: before the closing delimiter, if there is one. -/
def innerStop (f : Form) : Nat :=
  if f.isClosed then f.stop - f.closing.length else f.stop

/-- Whether `offset` is between `innerStart` and `innerStop`; both edges count. -/
def holds (f : Form) (offset : Nat) : Bool :=
  f.innerStart ≤ offset && offset ≤ f.innerStop

/-- The nodes right inside a `Form`, see `inRow`. -/
def nodes (f : Form) : List Form :=
  inRow (f.toSite :: f.around) f.start f.children

/-- The forms directly inside, by `inRow`; trivia and stray closers are left out. -/
def forms (f : Form) : List Form :=
  f.nodes.filter (·.kind.isForm)

mutual

/-- The collection that a tree is, or that its prefixes apply to. -/
def collectionOf? (around : List Site) (start : Nat) : Tree → Option Form
  | .leaf _ => none
  | .node k ts =>
    if k.isCollection then some (ofNode k start ts around)
    else if k = .prefixed then operandOf? (Site.ofNode k start ts :: around) start ts
    else none

/-- The collection that the first form of a row is, or that its prefixes apply to, as
`collectionOf?`. -/
def operandOf? (around : List Site) (start : Nat) : List Tree → Option Form
  | [] => none
  | .leaf t :: ts => operandOf? around (start + t.text.length) ts
  | .node k cs :: ts =>
    if k.isForm then collectionOf? around start (.node k cs)
    else operandOf? around (start + Tree.rowWidth cs) ts

end

/-- The collection that `f` is, or that its prefixes apply to. -/
def asCollection? (f : Form) : Option Form :=
  collectionOf? f.around f.start (.node f.kind f.children)

/-- The `Form` right around a form. -/
def parent? (f : Form) : Option Form :=
  match f.around with
  | [] => none
  | s :: around => some { s with around }

/-- The node reached from `s` by climbing out of prefixes. -/
def climb (s : Site) : List Site → Form
  | [] => { s with around := [] }
  | p :: around => if p.kind = .prefixed then climb p around else { s with around := p :: around }

/-- The form `f` with every prefix that applies to it. -/
def outermost (f : Form) : Form :=
  climb f.toSite f.around

/-- The node around `f.outermost`, the form and its prefixes: a collection or the document. -/
def container? (f : Form) : Option Form :=
  f.outermost.parent?

/-- The next form in the `container?` of `f`. -/
def next? (f : Form) : Option Form :=
  f.container?.bind fun c => c.forms.find? fun g => f.outermost.start < g.start

/-- The form before in the `container?` of `f`. -/
def prev? (f : Form) : Option Form :=
  f.container?.bind fun c => (c.forms.filter fun g => g.start < f.outermost.start).getLast?

/-- The `container?` of `f`, if it is a collection. -/
def enclosing? (f : Form) : Option Form :=
  f.container?.filter isCollection

end Form

/-- A token in place: where it starts, and the nodes around it, innermost first. -/
structure Leaf where
  token : Token
  start : Nat
  around : List Site

namespace Leaf

mutual

/-- The tokens of a tree in place, when the tree starts at `start` inside `around`. -/
def within (around : List Site) (start : Nat) : Tree → List Leaf
  | .leaf t => [⟨t, start, around⟩]
  | .node k ts => rowWithin (Site.ofNode k start ts :: around) start ts

/-- `within` for trees in a row. -/
def rowWithin (around : List Site) (start : Nat) : List Tree → List Leaf
  | [] => []
  | t :: ts => within around start t ++ rowWithin around (start + t.width) ts

end

/-- The kind of the token of a `Leaf`. -/
def kind (l : Leaf) : Kind :=
  l.token.kind

/-- Where a `Leaf` ends. -/
def stop (l : Leaf) : Nat :=
  l.start + l.token.text.length

/-- The `Form` right around a `Leaf`. -/
def parent? (l : Leaf) : Option Form :=
  match l.around with
  | [] => none
  | s :: around => some { s with around }

end Leaf

end SexpEdit
