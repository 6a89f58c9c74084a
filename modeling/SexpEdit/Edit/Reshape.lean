/-
Edits that move delimiters.

* `Document.slurp?` moves a delimiter over the next form outside, so that the collection takes it in;
* `Document.barf?` moves a delimiter over the last form inside, so that the collection gives it up;
* `Document.splice?` takes the delimiters away;
* `Document.split?` puts a closing and an opening delimiter at the offset;
* `Document.wrap?` puts delimiters around a form or a selection;
* `Document.transpose?` exchanges two neighbouring forms.
-/
import SexpEdit.Edit

namespace SexpEdit

/-- The collections among some nodes, each with the nodes after it around it. -/
def Form.collectionsOf : List Site → List Form
  | [] => []
  | s :: around =>
    if s.kind.isCollection then { s with around } :: collectionsOf around
    else collectionsOf around

namespace Document

/-- The collections around `offset`, from the one `innermost?` finds outward. -/
def outward (d : Document) (offset : Nat) : List Form :=
  match d.innermost? offset with
  | none => []
  | some f => f :: Form.collectionsOf f.around

/-- Takes `sibling`, the form before or after the collection `list`, into it. -/
def adopt (list sibling : Form) (backward : Bool) : List Change :=
  if backward then
    [.deletion list.start list.opening.length, .insertion sibling.start list.opening]
  else
    let n := list.closing.length
    [.deletion (list.stop - n) n, .insertion (sibling.stop - n) list.closing]

/-- Moves a delimiter of the nearest closed collection that has a form next to it over that form. -/
def slurp? (d : Document) (offset : Nat) (backward : Bool) : Option Edit :=
  (d.outward offset).findSome? fun list =>
    if list.isClosed then
      (if backward then list.prev? else list.next?).map fun sibling =>
        ⟨adopt list sibling backward, offset⟩
    else none

/-- Moves the closer of the collection around the offset before its last form, or, when `backward`,
its opener after its first one. -/
def barf? (d : Document) (offset : Nat) (backward : Bool) : Option Edit :=
  match d.innermost? offset with
  | none => none
  | some list =>
    let forms := list.forms
    if !list.isClosed || forms.isEmpty then none
    else if backward then
      let target := match forms[1]? with
        | some f => f.start
        | none => list.innerStop
      some ⟨[.insertion target list.opening, .deletion list.start list.opening.length],
        if offset < target then offset - 1 else offset⟩
    else
      let target := match forms.dropLast.getLast? with
        | some f => f.stop
        | none => list.innerStart
      some ⟨[.deletion list.innerStop list.closing.length, .insertion target list.closing],
        if target < offset then offset + 1 else offset⟩

/-- Takes away the closing delimiter of `list`, if it `isClosed`. -/
def uncloseChanges (list : Form) : List Change :=
  if list.isClosed then [.deletion list.innerStop list.closing.length] else []

/-- Takes away the delimiters of the collection around the offset. -/
def splice? (d : Document) (offset : Nat) : Option Edit :=
  (d.innermost? offset).map fun list =>
    ⟨uncloseChanges list ++ [.deletion list.start list.opening.length],
      offset - list.opening.length⟩

/-- Makes two collections of the one around the offset. Inside an atom the cut comes after the
atom; what is blank around the cut goes. -/
def split? (d : Document) (offset : Nat) : Option Edit :=
  match d.innermost? offset with
  | none => none
  | some list =>
    if !list.isClosed then none
    else
      let forms := list.forms
      let cut := match (Form.around? forms offset).bind (forms[·]?) with
        | some f => f.stop
        | none => offset
      let left := match Form.lastBefore? forms cut with
        | some f => f.stop
        | none => list.innerStart
      let right := match Form.firstAfter? forms cut with
        | some f => f.start
        | none => list.innerStop
      let gap := if left < right then [Change.deletion left (right - left)] else []
      some ⟨gap ++ [.insertion left (list.closing ++ [' '] ++ list.opening)],
        left + list.closing.length⟩

/-- Puts delimiters around the selection, or around the form at the offset or, by
`Form.firstAfter?`, after it. With no such form an empty collection is put in. -/
def wrap? (d : Document) (offset : Nat) (o : Edit.Options) : Option Edit :=
  let pair := o.delimiters.getD .parens
  let around (start stop : Nat) : Edit :=
    ⟨[.insertion stop pair.closing, .insertion start pair.opening], start + pair.opening.length⟩
  match o.region? offset with
  | some (start, stop) => if d.isBalanced start stop then some (around start stop) else none
  | none =>
    let forms := (d.container offset).forms
    let form := match forms.find? fun f => f.start ≤ offset && offset < f.stop with
      | some f => some f
      | none => Form.firstAfter? forms offset
    match form with
    | some f => some (around f.start f.stop)
    | none =>
      some ⟨[.insertion offset (pair.opening ++ pair.closing)], offset + pair.opening.length⟩

/-- The two of `forms` to exchange: inside a form that one and the next, else those on either
side. -/
def neighbours? (forms : List Form) (offset : Nat) : Option (Form × Form) :=
  match Form.around? forms offset with
  | some i =>
    match forms[i]?, forms[i + 1]? with
    | some f, some g => some (f, g)
    | _, _ => none
  | none =>
    match Form.lastBefore? forms offset, Form.firstAfter? forms offset with
    | some f, some g => some (f, g)
    | _, _ => none

/-- Exchanges the two forms that `neighbours?` finds at the offset. -/
def transpose? (d : Document) (offset : Nat) : Option Edit :=
  (neighbours? (d.container offset).forms offset).map fun (f, g) =>
    ⟨[.deletion g.start g.length, .insertion g.start f.text,
      .deletion f.start f.length, .insertion f.start g.text], g.stop⟩

end Document

end SexpEdit
