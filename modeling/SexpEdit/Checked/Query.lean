/-
Queries and motions on words.

The queries of a document and the motions, with every sum, difference, index and slice checked.
-/
import SexpEdit.Checked.Word
import SexpEdit.Motion

namespace SexpEdit.Checked

/-! ### Documents -/

/-- `Document.ofText`, for a text of at most `maxText` bytes; its tree is built by events. -/
def document (cs : List Char) : Checked Document :=
  if maxText < Text.byteLength cs then throw (.tooLong (Text.byteLength cs))
  else
    match Tree.ofEvents? (Event.ofTokens (Token.scan cs)) (Token.scan cs) with
    | .ok _ => pure (.ofText cs)
    | .error e => throw (.noTree e)

/-- `Form.length`. -/
def length (f : Form) : Checked Nat :=
  minus f.stop f.start

/-- `Form.text`, cut out of the text of the document. -/
def text (d : Document) (f : Form) : Checked (List Char) :=
  slice d.text f.start f.stop

/-- `Form.innerStart`. -/
def innerStart (f : Form) : Checked Nat :=
  plus f.start f.opening.length

/-- `Form.innerStop`. -/
def innerStop (f : Form) : Checked Nat :=
  if f.isClosed then minus f.stop f.closing.length else pure f.stop

/-- `Form.holds`. -/
def holds (f : Form) (offset : Nat) : Checked Bool := do
  return (← innerStart f) ≤ offset && offset ≤ (← innerStop f)

/-- `Document.innermost?`. -/
def innermost (d : Document) (offset : Nat) : Checked (Option Form) := do
  let held ← d.nodes.filterM fun f => if f.isCollection then holds f offset else pure false
  return held.getLast?

/-- `Document.container`. -/
def container (d : Document) (offset : Nat) : Checked Form := do
  return (← innermost d offset).getD d.root

/-- `Document.isBalanced`. -/
def isBalanced (d : Document) (start stop : Nat) : Checked Bool :=
  d.forms.allM fun f => do
    if f.start < stop && start < f.stop then
      let contained := start ≤ f.start && f.stop ≤ stop
      let enclosing ←
        if f.isCollection then pure ((← innerStart f) ≤ start && stop ≤ (← innerStop f))
        else if f.isString then pure (f.start < start && stop < f.stop)
        else pure (f.start ≤ start && stop ≤ f.stop)
      return contained || enclosing
    else return true

/-! ### Motions -/

/-- `Motion.target`. -/
def target (d : Document) (offset : Nat) : Motion → Checked Destination
  | .topLevel => pure (Motion.topLevel.target d offset)
  | .forward => do
    let forms := (← container d offset).forms
    return match forms.find? fun f => offset < f.stop with
      | some f => .point f.stop
      | none => .point offset
  | .backward => do
    let forms := (← container d offset).forms
    return match (forms.filter fun f => f.start < offset).getLast? with
      | some f => .point f.start
      | none => .point offset
  | .down => do
    let forms := (← container d offset).forms
    match (forms.filter fun f => offset ≤ f.start).findSome? Form.asCollection? with
    | some f => return .point (← innerStart f)
    | none => return .point offset
  | .up => do
    return match ← innermost d offset with
      | some f => .point f.start
      | none => .point offset
  | .out => do
    return match ← innermost d offset with
      | some f => .point f.stop
      | none => .point offset

/-- `narrowest?`. -/
def narrowest : List (Nat × Nat) → Checked (Option (Nat × Nat))
  | [] => pure none
  | r :: rs => do
    match ← narrowest rs with
    | none => return some r
    | some s => return if (← minus s.2 s.1) < (← minus r.2 r.1) then some s else some r

/-- `Document.structuralRanges`. -/
def structuralRanges (d : Document) : Checked (List (Nat × Nat)) := do
  let ranges ← d.forms.mapM fun f =>
    if f.isCollection then do return [(f.start, f.stop), (← innerStart f, ← innerStop f)]
    else pure [(f.start, f.stop)]
  return ranges.flatten

/-- `Document.expansion`. -/
def expansion (d : Document) (start stop : Nat) : Checked Destination := do
  let wider := (← structuralRanges d).filter fun r =>
    r.1 ≤ start && stop ≤ r.2 && r != (start, stop)
  return match ← narrowest wider with
    | some r => .span r.1 r.2
    | none => .span start stop

end SexpEdit.Checked
