/-
Trees as rows of events.

An event opens a node, adds the next token, or closes the innermost open node; a placeholder does
nothing. `Tree.events` writes a tree as its events in preorder, `Tree.ofEvents?` builds a tree
from events and tokens, and `Event.ofTokens` gives the events of the document that a row of tokens
makes, keeping only the kinds of the open nodes.

A `Recorder` reserves slots for nodes that may or may not come to be: `Recorder.mark` leaves a
placeholder, `Recorder.complete` makes a node of it, `Recorder.abandon` takes it back when it is the
last event and leaves it when it is not. `Recorder.tree?` records the document of the tokens in this
way, behind whatever is recorded already, and builds its tree.
-/
import SexpEdit.Tree

namespace SexpEdit

/-- One step in building a tree. -/
inductive Event where
  | start (kind : Kind)
  /-- Add the next token, as one of this kind. -/
  | token (kind : Kind)
  | finish
  | placeholder
  deriving DecidableEq, Repr

namespace Tree

mutual

/-- The events of a tree in preorder. -/
def events : Tree → List Event
  | leaf t => [.token t.kind]
  | node k ts => .start k :: (rowEvents ts ++ [.finish])

/-- `events` of trees in a row. -/
def rowEvents : List Tree → List Event
  | [] => []
  | t :: ts => events t ++ rowEvents ts

end

/-- Why events build no tree. -/
inductive BuildError where
  /-- A token is asked for after the last one. -/
  | noTokenLeft
  /-- A node is closed while none is open. -/
  | nothingOpen
  /-- What is left at the end is not exactly one node. -/
  | notOneRoot
  /-- A node is completed at a slot that is not reserved, or its slot is never completed. -/
  | slotMisused
  deriving DecidableEq, Repr

namespace Scaffold

/-- Closes the innermost open node. -/
def leave? (s : Scaffold) : Except BuildError Scaffold :=
  match s.frames with
  | [] => .error .nothingOpen
  | f :: fs => .ok (attach ⟨s.top, fs⟩ f.close)

/-- Every finished tree that is not inside another finished tree, last first. -/
def loose (s : Scaffold) : List Tree :=
  s.frames.flatMap Frame.children ++ s.top

/-- The tree that is built: the only loose one, which must be a node. A node that is still open is
not looked at. -/
def root? (s : Scaffold) : Except BuildError Tree :=
  match s.loose with
  | [.node k ts] => .ok (.node k ts)
  | _ => .error .notOneRoot

/-- Follows events, taking the texts of tokens in order. -/
def replay (s : Scaffold) : List Event → List Token → Except BuildError Scaffold
  | [], _ => .ok s
  | .start k :: es, ts => replay (s.enter k) es ts
  | .token k :: es, t :: ts => replay (s.attach (.leaf ⟨k, t.text⟩)) es ts
  | .token _ :: _, [] => .error .noTokenLeft
  | .finish :: es, ts =>
    match s.leave? with
    | .ok s => replay s es ts
    | .error e => .error e
  | .placeholder :: es, ts => replay s es ts

end Scaffold

/-- The tree that `events` build over `tokens`; those of them that are not asked for are left
out. -/
def ofEvents? (events : List Event) (tokens : List Token) : Except BuildError Tree :=
  match Scaffold.empty.replay events tokens with
  | .ok s => s.root?
  | .error e => .error e

end Tree

namespace Event

/-- How many of the innermost of the `opened` nodes are prefixes waiting for a form. -/
def waiting (opened : List Kind) : Nat :=
  (opened.takeWhile (· == .prefixed)).length

/-- As many finishing events as nodes are to be closed, `n`. -/
def finishes (n : Nat) : List Event :=
  List.replicate n .finish

/-- The events for one token while the nodes of the kinds `opened`, innermost first, are open, and
the nodes open afterwards. -/
def step (opened : List Kind) (k : Kind) : List Event × List Kind :=
  let n := waiting opened
  let settled := opened.drop n
  match k with
  | .whitespace | .newline => ([.token k], opened)
  | .comment => (finishes n ++ [.token k], settled)
  | .rparen | .rbracket | .rbrace =>
    match settled with
    | o :: outer =>
      if o.ending? = some k then
        let m := waiting outer
        (finishes n ++ [.token k, .finish] ++ finishes m, outer.drop m)
      else (finishes n ++ [.start .error, .token k, .finish], settled)
    | [] => (finishes n ++ [.start .error, .token k, .finish], settled)
  | .readerPrefix => ([.start .prefixed, .token k], .prefixed :: opened)
  | .lparen => ([.start .list, .token k], .list :: opened)
  | .lbracket => ([.start .vector, .token k], .vector :: opened)
  | .lbrace => ([.start .map, .token k], .map :: opened)
  | _ => ([.start .atom, .token k, .finish] ++ finishes n, settled)

/-- The events for a row of tokens while the nodes of the kinds `opened` are open. At the end all
of them are closed. -/
def emit (opened : List Kind) : List Token → List Event
  | [] => finishes opened.length
  | t :: ts =>
    let (es, opened) := step opened t.kind
    es ++ emit opened ts

/-- The events of the document that `tokens` make. -/
def ofTokens (tokens : List Token) : List Event :=
  .start .root :: (emit [] tokens ++ [.finish])

end Event

/-- Tokens to be read, and the events recorded so far. -/
structure Recorder where
  tokens : List Token
  events : List Event

/-- The slot that a recorder reserved for a node. -/
structure Marker where
  slot : Nat

namespace Recorder

/-- A recorder of `tokens` with nothing recorded yet. -/
def ofTokens (tokens : List Token) : Recorder :=
  ⟨tokens, []⟩

/-- The kind of the token `n` places ahead, the end of the file past the last one. -/
def ahead (r : Recorder) (n : Nat) : Kind :=
  match r.tokens[n]? with
  | some t => t.kind
  | none => .eof

/-- The kind of the next token of a `Recorder`. -/
def current (r : Recorder) : Kind :=
  r.ahead 0

/-- Whether a `Recorder` has no token left. -/
def atEnd (r : Recorder) : Bool :=
  r.tokens.isEmpty

/-- Records one more event, `e`. -/
def put (r : Recorder) (e : Event) : Recorder :=
  { r with events := r.events ++ [e] }

/-- Reserves a slot for a node, which a `Marker` stands for. -/
def mark (r : Recorder) : Marker × Recorder :=
  (⟨r.events.length⟩, r.put .placeholder)

/-- Makes a node of kind `k` of the slot of `m`, over all that was recorded since. It is `none` when
the slot does not hold a placeholder. -/
def complete (r : Recorder) (m : Marker) (k : Kind) : Option Recorder :=
  if r.events[m.slot]? = some .placeholder then
    some (put { r with events := r.events.set m.slot (.start k) } .finish)
  else none

/-- Gives up the slot of `m`. The last event is taken back, and it has to be the placeholder; any
other slot stays as a placeholder. It is `none` when the slot is not one of the recorder's. -/
def abandon (r : Recorder) (m : Marker) : Option Recorder :=
  match r.events.getLast? with
  | none => none
  | some e =>
    if m.slot + 1 = r.events.length then
      if e = .placeholder then some { r with events := r.events.dropLast } else none
    else some r

/-- Gives up several slots with `abandon`, in the order given. -/
def abandonAll (r : Recorder) : List Marker → Option Recorder
  | [] => some r
  | m :: ms =>
    match r.abandon m with
    | some r => abandonAll r ms
    | none => none

/-- What can be done with the markers of a recorder before reading starts. -/
inductive Step where
  | mark
  /-- Give up the open marker at a position, in the order of opening. -/
  | abandon (i : Nat)
  deriving DecidableEq, Repr

/-- Takes a step, keeping the open markers in the order of opening. It is `none` when there is no
open marker at the position, or when it cannot be given up. -/
def step (r : Recorder) (opened : List Marker) : Step → Option (Recorder × List Marker)
  | .mark => some (r.mark.2, opened ++ [r.mark.1])
  | .abandon i =>
    match opened[i]? with
    | none => none
    | some m =>
      match r.abandon m with
      | some r => some (r, opened.eraseIdx i)
      | none => none

/-- Takes steps one after another, see `step`. -/
def run (r : Recorder) (opened : List Marker) : List Step → Option (Recorder × List Marker)
  | [] => some (r, opened)
  | s :: ss =>
    match r.step opened s with
    | some (r, opened) => run r opened ss
    | none => none

/-- A node that is being recorded. -/
structure Pending where
  kind : Kind
  marker : Marker

/-- Records events through markers, while the nodes `opened`, innermost first, are being recorded:
a slot is reserved where a node starts, and completed where it finishes. Nothing when a slot cannot
be completed, or when one is left over. -/
def record (r : Recorder) (opened : List Pending) : List Event → Option Recorder
  | [] => if opened.isEmpty then some r else none
  | .start k :: es => record r.mark.2 (⟨k, r.mark.1⟩ :: opened) es
  | .token k :: es => record (r.put (.token k)) opened es
  | .placeholder :: es => record (r.put .placeholder) opened es
  | .finish :: es =>
    match opened with
    | [] => none
    | n :: outer =>
      match r.complete n.marker n.kind with
      | some r => record r outer es
      | none => none

/-- The document that the tokens make, by `Event.ofTokens`, recorded behind what was recorded
before. -/
def tree? (r : Recorder) : Except Tree.BuildError Tree :=
  match r.record [] (Event.ofTokens r.tokens) with
  | some r => Tree.ofEvents? r.events r.tokens
  | none => .error .slotMisused

end Recorder

end SexpEdit
