/-
From tokens to a tree.

The reader takes one token at a time and keeps the nodes that are still open. It never fails:

* a collection that is not closed ends with the text;
* a closer that does not match the innermost open collection is an error node of its own;
* a prefix takes the blanks after it and then one form; when a closer, a comment or the end of the
  text comes first it stands without a form.

`Tree.read` reads a row of tokens, `Tree.parse` a text.
-/
import SexpEdit.Token.Lexer
import SexpEdit.Tree

namespace SexpEdit.Tree

namespace Scaffold

/-- Adds a finished form. A prefix waiting for its form takes it and is finished too, and so is a
prefix waiting for that one. -/
def supplyTo (top : List Tree) : List Frame → Tree → Scaffold
  | [], t => ⟨t :: top, []⟩
  | f :: fs, t =>
    if f.kind = .prefixed then supplyTo top fs (f.push t).close else ⟨top, f.push t :: fs⟩

/-- Adds the finished form `t` to the innermost open node, by `supplyTo`. -/
def supply (s : Scaffold) (t : Tree) : Scaffold :=
  supplyTo s.top s.frames t

/-- Finishes the prefixes that wait for a form: none will come. -/
def settle (s : Scaffold) : Scaffold :=
  match s.frames with
  | [] => s
  | f :: fs => if f.kind = .prefixed then supplyTo s.top fs f.close else s

/-- Reads a closer: it ends the innermost open collection if it matches, and is an error if not. -/
def readCloser (s : Scaffold) (t : Token) : Scaffold :=
  match s.settle with
  | ⟨top, f :: fs⟩ =>
    if f.kind.ending? = some t.kind then supplyTo top fs (f.push (.leaf t)).close
    else ⟨top, f.push (.node .error [.leaf t]) :: fs⟩
  | s => s.attach (.node .error [.leaf t])

/-- Takes one token into a `Scaffold`. -/
def read (s : Scaffold) (t : Token) : Scaffold :=
  match t.kind with
  | .whitespace | .newline => s.attach (.leaf t)
  | .comment => s.settle.attach (.leaf t)
  | .rparen | .rbracket | .rbrace => s.readCloser t
  | .readerPrefix => (s.enter .prefixed).attach (.leaf t)
  | .lparen => (s.enter .list).attach (.leaf t)
  | .lbracket => (s.enter .vector).attach (.leaf t)
  | .lbrace => (s.enter .map).attach (.leaf t)
  | _ => s.supply (.node .atom [.leaf t])

/-- The trees at the top, last first, once `t` and then the open nodes around it are finished. -/
def closeOver (top : List Tree) (t : Tree) : List Frame → List Tree
  | [] => t :: top
  | f :: fs => closeOver top (f.push t).close fs

/-- The document once the text has ended: every open node is finished where it stands. -/
def finish (s : Scaffold) : Tree :=
  match s.frames with
  | [] => .node .root s.top.reverse
  | f :: fs => .node .root (closeOver s.top f.close fs).reverse

end Scaffold

/-- The document that `tokens` make. -/
def read (tokens : List Token) : Tree :=
  (tokens.foldl Scaffold.read Scaffold.empty).finish

/-- Reads a text: the tokens of `Token.scan`. -/
def parse (cs : List Char) : Tree :=
  read (Token.scan cs)

end SexpEdit.Tree
