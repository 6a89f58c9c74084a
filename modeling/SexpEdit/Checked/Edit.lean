/-
Structural edits on words.

The edits that move delimiters, those that take text away, and indentation, with every sum,
difference, index and slice checked.  `Checked.edit` is `StructuralEdit.at?`.
-/
import SexpEdit.Checked.Query
import SexpEdit.Edit.Indent
import SexpEdit.Operation

namespace SexpEdit.Checked

/-! ### Edits that move delimiters -/

/-- `Document.outward`. -/
def outward (d : Document) (offset : Nat) : Checked (List Form) := do
  return match ← innermost d offset with
    | none => []
    | some f => f :: Form.collectionsOf f.around

/-- `Document.adopt`. -/
def adopt (list sibling : Form) (backward : Bool) : Checked (List Change) := do
  if backward then
    return [.deletion list.start list.opening.length, .insertion sibling.start list.opening]
  else
    let n := list.closing.length
    return [.deletion (← minus list.stop n) n, .insertion (← minus sibling.stop n) list.closing]

/-- `Document.slurp?`. -/
def slurp (d : Document) (offset : Nat) (backward : Bool) : Checked (Option Edit) := do
  (← outward d offset).findSomeM? fun list => do
    if list.isClosed then
      match if backward then list.prev? else list.next? with
      | none => return none
      | some sibling => return some ⟨← adopt list sibling backward, offset⟩
    else return none

/-- Where the form before the last one of `list` ends, or its `innerStart` when there is none. -/
def beforeLast (list : Form) : Checked Nat :=
  if list.forms.length = 1 then innerStart list
  else do
    let f ← item list.forms (← minus list.forms.length 2)
    return f.stop

/-- Where the second form of `list` starts, or its `innerStop` when there is none. -/
def afterFirst (list : Form) : Checked Nat :=
  match list.forms[1]? with
  | some f => pure f.start
  | none => innerStop list

/-- `Document.barf?`. -/
def barf (d : Document) (offset : Nat) (backward : Bool) : Checked (Option Edit) := do
  match ← innermost d offset with
  | none => return none
  | some list =>
    if !list.isClosed || list.forms.isEmpty then return none
    else if backward then
      let target ← afterFirst list
      return some ⟨[.insertion target list.opening, .deletion list.start list.opening.length],
        ← (if offset < target then minus offset 1 else pure offset)⟩
    else
      let target ← beforeLast list
      return some ⟨[.deletion (← innerStop list) list.closing.length,
        .insertion target list.closing],
        ← (if target < offset then plus offset 1 else pure offset)⟩

/-- `Document.uncloseChanges`. -/
def uncloseChanges (list : Form) : Checked (List Change) :=
  if list.isClosed then do return [.deletion (← innerStop list) list.closing.length] else pure []

/-- `Document.splice?`. -/
def splice (d : Document) (offset : Nat) : Checked (Option Edit) := do
  match ← innermost d offset with
  | none => return none
  | some list =>
    return some ⟨(← uncloseChanges list) ++ [.deletion list.start list.opening.length],
      ← minus offset list.opening.length⟩

/-- The offset, or the end of the form of `list` that it is strictly inside of. -/
def cutAt (list : Form) (offset : Nat) : Checked Nat :=
  match Form.around? list.forms offset with
  | some i => do return (← item list.forms i).stop
  | none => pure offset

/-- Where the last form of `list` before `offset` ends, or its `innerStart`. -/
def leftOf (list : Form) (offset : Nat) : Checked Nat :=
  match Form.lastBefore? list.forms offset with
  | some f => pure f.stop
  | none => innerStart list

/-- Where the first form of `list` after `offset` starts, or its `innerStop`. -/
def rightOf (list : Form) (offset : Nat) : Checked Nat :=
  match Form.firstAfter? list.forms offset with
  | some f => pure f.start
  | none => innerStop list

/-- `Document.split?`. -/
def split (d : Document) (offset : Nat) : Checked (Option Edit) := do
  match ← innermost d offset with
  | none => return none
  | some list =>
    if !list.isClosed then return none
    else
      let cut ← cutAt list offset
      let left ← leftOf list cut
      let right ← rightOf list cut
      let gap ← (if left < right then do return [Change.deletion left (← minus right left)]
        else pure [])
      return some ⟨gap ++ [.insertion left (list.closing ++ [' '] ++ list.opening)],
        ← plus left list.closing.length⟩

/-- `Document.wrap?`. -/
def wrap (d : Document) (offset : Nat) (o : Edit.Options) : Checked (Option Edit) := do
  let pair := o.delimiters.getD .parens
  let around (start stop : Nat) : Checked Edit := do
    return ⟨[.insertion stop pair.closing, .insertion start pair.opening],
      ← plus start pair.opening.length⟩
  match o.region? offset with
  | some (start, stop) =>
    if ← isBalanced d start stop then return some (← around start stop) else return none
  | none =>
    let forms := (← container d offset).forms
    let form := match forms.find? fun f => f.start ≤ offset && offset < f.stop with
      | some f => some f
      | none => Form.firstAfter? forms offset
    match form with
    | some f => return some (← around f.start f.stop)
    | none =>
      return some ⟨[.insertion offset (pair.opening ++ pair.closing)],
        ← plus offset pair.opening.length⟩

/-- `Document.transpose?`. -/
def transpose (d : Document) (offset : Nat) : Checked (Option Edit) := do
  match Document.neighbours? (← container d offset).forms offset with
  | none => return none
  | some (f, g) =>
    return some ⟨[.deletion g.start (← length g), .insertion g.start (← text d f),
      .deletion f.start (← length f), .insertion f.start (← text d g)], g.stop⟩

/-! ### Edits that take text away -/

/-- `Document.killRegion?`. -/
def killRegion (d : Document) (start stop : Nat) : Checked (Option Edit) := do
  if ← isBalanced d start stop then
    return some ⟨[.deletion start (← minus stop start)], start⟩
  else return none

/-- Takes away what is between `start` and `stop`, if that is something. -/
def cutBetween (start stop : Nat) : Checked (Option Edit) :=
  if start < stop then do return some ⟨[.deletion start (← minus stop start)], start⟩
  else pure none

/-- `Document.kill?`. -/
def kill (d : Document) (offset : Nat) (o : Edit.Options) : Checked (Option Edit) := do
  match o.region? offset with
  | some (start, stop) => killRegion d start stop
  | none =>
    let forms := (← container d offset).forms
    if o.backward then
      match (forms.filter fun f => f.start < offset).getLast? with
      | none => return none
      | some f =>
        let start ← (if f.isString && offset < f.stop then plus f.start 1 else pure f.start)
        cutBetween start offset
    else
      match forms.find? fun f => offset < f.stop with
      | none => return none
      | some f =>
        let stop ← (if f.isTerminatedString && f.start < offset then minus f.stop 1
          else pure f.stop)
        cutBetween offset stop

/-- `Document.spliceKill?`. -/
def spliceKill (d : Document) (offset : Nat) (backward : Bool) : Checked (Option Edit) := do
  match ← innermost d offset with
  | none => return none
  | some list =>
    let inside := (Form.around? list.forms offset).isSome
    if backward then
      let right ← (if inside then pure offset else rightOf list offset)
      return some ⟨(← uncloseChanges list) ++ [.deletion list.start (← minus right list.start)],
        list.start⟩
    else
      let left ← (if inside then pure offset else leftOf list offset)
      return some ⟨[.deletion left (← minus list.stop left),
        .deletion list.start list.opening.length], ← minus left list.opening.length⟩

/-- `Document.delimiterFate?`. -/
def delimiterFate (d : Document) (offset : Nat) :
    Checked (Option (Kind × Document.DelimiterFate)) := do
  match d.leafAt? offset with
  | none => return none
  | some leaf =>
    if leaf.kind.isOpener || leaf.kind.isCloser then
      match leaf.parent?.filter Form.isCollection with
      | none => return some (leaf.kind, .alone)
      | some list =>
        if !list.isClosed then return some (leaf.kind, .alone)
        else if (← innerStart list) = (← innerStop list) then
          return some (leaf.kind, .withPartner list.start (← length list))
        else return some (leaf.kind, .stays)
    else return none

/-- `Document.removeAt`. -/
def removeAt (d : Document) (pos : Nat) (aside : Kind → Nat)
    (escape : Leaf → Checked (Option Nat)) : Checked Edit := do
  match ← delimiterFate d pos with
  | some (_, .withPartner start n) => return ⟨[.deletion start n], start⟩
  | some (_, .alone) => return Document.dropChar pos
  | some (k, .stays) => return .moved (aside k)
  | none =>
    match d.stringAt? pos with
    | none => return Document.dropChar pos
    | some s =>
      let width ← minus s.stop s.start
      let last ← minus s.stop 1
      if s.kind = .string && width = 2 then return ⟨[.deletion s.start 2], s.start⟩
      else if pos = s.start then return .moved (← plus pos 1)
      else if s.kind = .string && pos = last then return .moved pos
      else
        match ← escape s with
        | some start => return ⟨[.deletion start 2], start⟩
        | none => return Document.dropChar pos

/-- `Document.deleteForward?`. -/
def deleteForward (d : Document) (offset : Nat) : Checked (Option Edit) := do
  if d.length ≤ offset then return none
  else
    let next ← plus offset 1
    return some (← removeAt d offset (fun k => if k.isOpener then next else offset) fun s =>
      return if d.charAt? offset = some '\\' && next < s.stop then some offset else none)

/-- `Document.deleteBackward?`. -/
def deleteBackward (d : Document) (offset : Nat) : Checked (Option Edit) := do
  if offset = 0 || d.length < offset then return none
  else
    let pos ← minus offset 1
    return some (← removeAt d pos (fun k => if k.isCloser then pos else offset) fun s => do
      if (← plus s.start 1) < pos then
        let before ← minus pos 1
        return if d.charAt? before = some '\\' then some before else none
      else return none)

/-- `Document.delete?`. -/
def delete (d : Document) (offset : Nat) (o : Edit.Options) : Checked (Option Edit) :=
  match o.region? offset with
  | some (start, stop) => killRegion d start stop
  | none => if o.backward then deleteBackward d offset else deleteForward d offset

/-- `StructuralEdit.at?`. -/
def edit (e : StructuralEdit) (d : Document) (offset : Nat) (given : Edit.Options) :
    Checked (Option Edit) :=
  let o := e.options given
  match e with
  | .slurp _ => slurp d offset o.backward
  | .barf _ => barf d offset o.backward
  | .splice => splice d offset
  | .split => split d offset
  | .kill _ => kill d offset o
  | .spliceKill _ => spliceKill d offset o.backward
  | .delete _ => delete d offset o
  | .wrap _ => wrap d offset o
  | .transpose => transpose d offset

/-! ### Indentation -/

/-- `Text.lineOf`. -/
def lineOf (starts : List Nat) (offset : Nat) : Checked Nat :=
  minus (starts.takeWhile (· ≤ offset)).length 1

/-- `Reindent.column`; one that would be negative is zero. -/
def column (starts : List Nat) (edits : List Reindent.LineEdit) (offset : Nat) : Checked Nat := do
  let line ← lineOf starts offset
  let plain ← minus offset (← item starts line)
  return (← signedPlus (signed plain) (Reindent.shiftOf edits line)).toNat

/-- `Reindent.targetColumn`. -/
def targetColumn (d : Document) (starts : List Nat) (edits : List Reindent.LineEdit)
    (offset width : Nat) : Checked Nat := do
  match ← innermost d offset with
  | none => return 0
  | some list =>
    let openColumn ← column starts edits list.start
    match list.forms.filter fun f => f.start < offset with
    | [] => plus openColumn list.opening.length
    | head :: args =>
      if list.kind ≠ .list || !head.isSymbol then column starts edits head.start
      else if Reindent.isBodyHead (← text d head) then plus openColumn width
      else match args with
        | [] => plus openColumn width
        | arg :: _ =>
          if (← lineOf starts arg.start) = (← lineOf starts head.start) then
            column starts edits arg.start
          else plus openColumn width

/-- `Reindent.lineEdit?`, for at most `maxSigned` spaces. -/
def lineEdit (d : Document) (starts : List Nat) (width : Nat) (edits : List Reindent.LineEdit)
    (line : Nat) : Checked (Option Reindent.LineEdit) := do
  let start ← item starts line
  if Reindent.startsInString d start then return none
  else
    let rest := d.text.drop start
    let blanks := rest.takeWhile fun c => c == ' ' || c == '\t'
    match rest.drop blanks.length with
    | [] => return none
    | c :: _ =>
      if c = '\n' || c = '\r' then return none
      else
        let textStart ← plus start blanks.length
        let before ← minus textStart start
        let after ← targetColumn d starts edits textStart width
        if maxSigned < after then throw (.tooWide after)
        else
          return if after ≠ before || blanks.any (· == '\t') then some ⟨line, start, before, after⟩
            else none

/-- `Reindent.lineEdits`. -/
def lineEdits (d : Document) (starts : List Nat) (width : Nat) (edits : List Reindent.LineEdit)
    (line : Nat) : Nat → Checked (List Reindent.LineEdit)
  | 0 => pure edits
  | count + 1 => do
    match ← lineEdit d starts width edits line with
    | some e => lineEdits d starts width (edits ++ [e]) (line + 1) count
    | none => lineEdits d starts width edits (line + 1) count

/-- `Reindent.carry`. -/
def carryOver (offset : Nat) (moved : Int) : List Reindent.LineEdit → Checked Nat
  | [] => do return unsigned (← signedPlus (signed offset) moved)
  | e :: es => do
    if (← plus e.start e.before) ≤ offset then
      carryOver offset (← signedPlus moved e.shift) es
    else if e.start ≤ offset then
      return unsigned (← signedPlus (signed (← plus e.start e.after)) moved)
    else return unsigned (← signedPlus (signed offset) moved)

/-- `Document.indent`. -/
def indent (d : Document) (offset : Nat) (o : Edit.Options) : Checked Edit := do
  let start := min offset d.length
  let stop := min (max (o.otherEnd.getD start) start) d.length
  let starts := Text.lineStarts d.text
  let first ← lineOf starts start
  let count ← minus (← plus (← lineOf starts stop) 1) first
  let edits ← lineEdits d starts o.indentWidth [] first count
  return ⟨edits.reverse.flatMap Reindent.LineEdit.changes, ← carryOver start 0 edits⟩

end SexpEdit.Checked
