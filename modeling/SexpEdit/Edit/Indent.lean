/-
Indentation.

Lines are visited from the top. The column a line should start at follows from the forms before it,
some of which may stand on lines that this pass has moved already, so `Reindent.column` adds the
shift of the line. A line that starts inside a string and a line with nothing on it are left alone.
The changes come from the bottom up, so that no change moves the place of one after it.
-/
import SexpEdit.Edit
import SexpEdit.Text.Lines

namespace SexpEdit

namespace Reindent

/-- Heads whose body is indented by a fixed width. -/
def bodyHeads : List String :=
  ["let", "let*", "letfn", "letrec", "fn", "lambda", "when", "when-not", "when-let", "if-let",
    "loop", "binding", "do", "doseq", "dotimes", "ns", "try", "catch", "finally", "case", "cond",
    "condp", "progn", "unless", "dolist"]

/-- The part of `name` after its last slash. -/
def localName (name : List Char) : List Char :=
  (name.reverse.takeWhile (· != '/')).reverse

/-- Whether the body of a form with this head is indented by a fixed width: the head defines
something, sets something up, or is one of `bodyHeads`. -/
def isBodyHead (head : List Char) : Bool :=
  let name := localName head
  "def".toList.isPrefixOf name || "with-".toList.isPrefixOf name ||
    bodyHeads.any fun s => s.toList == name

/-- New blanks at the start of a line. -/
structure LineEdit where
  line : Nat
  start : Nat
  /-- How many blanks it starts with. -/
  before : Nat
  /-- How many spaces it is to start with. -/
  after : Nat
  deriving DecidableEq, Repr

/-- How far the text of an edited line moves to the right. -/
def LineEdit.shift (e : LineEdit) : Int :=
  (e.after : Int) - e.before

/-- How far `edits` move the text of `line` to the right, by the `LineEdit.shift` of its edit. -/
def shiftOf (edits : List LineEdit) (line : Nat) : Int :=
  match edits.find? fun e => e.line == line with
  | some e => e.shift
  | none => 0

/-- The column of `offset` once `edits` are made. -/
def column (starts : List Nat) (edits : List LineEdit) (offset : Nat) : Nat :=
  let line := Text.lineOf starts offset
  (((offset - Text.startOf starts line : Nat) : Int) + shiftOf edits line).toNat

/-- The column at which the text at `offset`, the first on its line, should stand. -/
def targetColumn (d : Document) (starts : List Nat) (edits : List LineEdit) (offset width : Nat) :
    Nat :=
  match d.innermost? offset with
  | none => 0
  | some list =>
    let openColumn := column starts edits list.start
    match list.forms.filter fun f => f.start < offset with
    | [] => openColumn + list.opening.length
    | head :: args =>
      if list.kind ≠ .list || !head.isSymbol then column starts edits head.start
      else if isBodyHead head.text then openColumn + width
      else match args with
        | [] => openColumn + width
        | arg :: _ =>
          if Text.lineOf starts arg.start = Text.lineOf starts head.start then
            column starts edits arg.start
          else openColumn + width

/-- Whether the line that starts at `start` begins inside a string. -/
def startsInString (d : Document) (start : Nat) : Bool :=
  match d.leafAt? start with
  | some l => l.kind.isString && l.start < start
  | none => false

/-- The edit of `line`, if it needs one, once `edits`, those of the lines above, are made. -/
def lineEdit? (d : Document) (starts : List Nat) (width : Nat) (edits : List LineEdit)
    (line : Nat) : Option LineEdit :=
  let start := Text.startOf starts line
  if startsInString d start then none
  else
    let rest := d.text.drop start
    let blanks := rest.takeWhile fun c => c == ' ' || c == '\t'
    match rest.drop blanks.length with
    | [] => none
    | c :: _ =>
      if c = '\n' || c = '\r' then none
      else
        let after := targetColumn d starts edits (start + blanks.length) width
        if after ≠ blanks.length || blanks.any (· == '\t') then
          some ⟨line, start, blanks.length, after⟩
        else none

/-- The edits of `count` lines from `line` on, below the lines whose edits are `edits`. -/
def lineEdits (d : Document) (starts : List Nat) (width : Nat) (edits : List LineEdit)
    (line : Nat) : Nat → List LineEdit
  | 0 => edits
  | count + 1 =>
    match lineEdit? d starts width edits line with
    | some e => lineEdits d starts width (edits ++ [e]) (line + 1) count
    | none => lineEdits d starts width edits (line + 1) count

/-- The changes of a `LineEdit`: the old blanks go, and the new spaces come. -/
def LineEdit.changes (e : LineEdit) : List Change :=
  (if 0 < e.before then [.deletion e.start e.before] else []) ++
    (if 0 < e.after then [.insertion e.start (List.replicate e.after ' ')] else [])

/-- Where an offset goes when the edits are made and the lines above have moved it by `moved`. An
offset among the blanks of an edited line goes to the first character after them. -/
def carry (offset : Nat) (moved : Int) : List LineEdit → Nat
  | [] => (offset + moved).toNat
  | e :: es =>
    if e.start + e.before ≤ offset then carry offset (moved + e.shift) es
    else if e.start ≤ offset then ((e.start + e.after : Nat) + moved).toNat
    else (offset + moved).toNat

end Reindent

namespace Document

/-- Indents every line from the one that holds `offset` to the one that holds the other end. -/
def indent (d : Document) (offset : Nat) (o : Edit.Options) : Edit :=
  let start := min offset d.length
  let stop := min (max (o.otherEnd.getD start) start) d.length
  let starts := Text.lineStarts d.text
  let first := Text.lineOf starts start
  let count := Text.lineOf starts stop + 1 - first
  let edits := Reindent.lineEdits d starts o.indentWidth [] first count
  ⟨edits.reverse.flatMap Reindent.LineEdit.changes, Reindent.carry start 0 edits⟩

end Document

end SexpEdit
