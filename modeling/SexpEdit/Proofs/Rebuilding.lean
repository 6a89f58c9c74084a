/-
Events carry the whole tree.

A tree is written as its events in preorder, and a builder follows events over a row of tokens.  The
builder keeps the open nodes on a stack and takes the tokens from the front.  So what the events of a
tree do is said in the middle of a run, with any nodes open and with any events and tokens still to
come: they attach that tree to the innermost open node, and use up its tokens and no others.

* `Scaffold.replay_events` — the events of a tree attach the tree;
* `Scaffold.replay_padded` — placeholders change nothing, wherever they stand;
* `Tree.events_rebuild` — the events of a tree, followed over its tokens, build the tree.
-/
import SexpEdit.Tree.Event

namespace SexpEdit

open SexpEdit.Tree

/-- The second row of events is the first with placeholders put in, any number and anywhere. -/
inductive Event.Padded : List Event → List Event → Prop
  | nil : Padded [] []
  | keep (e : Event) {es fs : List Event} : Padded es fs → Padded (e :: es) (e :: fs)
  | pad {es fs : List Event} : Padded es fs → Padded es (.placeholder :: fs)

namespace Tree.Scaffold

/-! ### The events of a tree -/

/-- Trees that `attach` adds one after another become the last children of the innermost open
node. -/
theorem foldl_attach_open (top : List Tree) (f : Frame) (fs : List Frame) (ts : List Tree) :
    ts.foldl attach ⟨top, f :: fs⟩ = ⟨top, ⟨f.kind, ts.reverse ++ f.children⟩ :: fs⟩ := by
  induction ts generalizing f with
  | nil => rfl
  | cons t ts ih =>
    rw [List.foldl_cons, attach, ih, List.reverse_cons, List.append_assoc]
    rfl

/-- A node that is entered by `enter`, filled and left by `leave?` is attached to what was open
before. -/
theorem leave?_foldl_attach (s : Scaffold) (k : Kind) (ts : List Tree) :
    (ts.foldl attach (s.enter k)).leave? = .ok (s.attach (node k ts)) := by
  rw [enter, foldl_attach_open, List.append_nil]
  show Except.ok (s.attach (Frame.close ⟨k, ts.reverse⟩)) = _
  rw [Frame.close, List.reverse_reverse]

-- The induction is on the tree, for any open nodes and for any events and tokens that follow: inside
-- a node both have changed.
mutual

/-- **The `events` of a tree attach the tree** to the innermost open node, and use up its tokens. -/
theorem replay_events : ∀ (t : Tree) (s : Scaffold) (es : List Event) (us : List Token),
    s.replay (t.events ++ es) (t.leaves ++ us) = (s.attach t).replay es us
  | leaf _, _, _, _ => rfl
  | node k ts, s, es, us => by
    rw [events, leaves, List.cons_append, List.append_assoc, replay,
      replay_rowEvents ts (s.enter k), List.singleton_append, replay, leave?_foldl_attach]

theorem replay_rowEvents : ∀ (ts : List Tree) (s : Scaffold) (es : List Event) (us : List Token),
    s.replay (rowEvents ts ++ es) (rowLeaves ts ++ us) = (ts.foldl attach s).replay es us
  | [], _, _, _ => rfl
  | t :: ts, s, es, us => by
    rw [rowEvents, rowLeaves, List.append_assoc, List.append_assoc, replay_events t s,
      replay_rowEvents ts (s.attach t), List.foldl_cons]

end

/-! ### Placeholders -/

/-- **Placeholders change nothing**: a builder comes out the same, or breaks off for the same
reason. -/
theorem replay_padded {es fs : List Event} (h : Event.Padded es fs) (s : Scaffold)
    (us : List Token) : s.replay fs us = s.replay es us := by
  induction h generalizing s us with
  | nil => rfl
  | pad _ ih =>
    rw [replay]
    exact ih s us
  | keep e _ ih =>
    cases e with
    | start k =>
      rw [replay, replay]
      exact ih (s.enter k) us
    | token k =>
      cases us with
      | nil => rfl
      | cons u us =>
        rw [replay, replay]
        exact ih (s.attach (leaf ⟨k, u.text⟩)) us
    | finish =>
      rw [replay, replay]
      cases s.leave? with
      | error e => rfl
      | ok s => exact ih s us
    | placeholder =>
      rw [replay, replay]
      exact ih s us

end Tree.Scaffold

/-- **Building undoes writing.**  The events of a tree that is a node, followed over the tokens of
the tree, build that tree.  And placeholders put into any events, any number and anywhere, do not
change what is built from them over any tokens. -/
theorem Tree.events_rebuild (k : Kind) (ts : List Tree) :
    ofEvents? (node k ts).events (node k ts).leaves = .ok (node k ts) ∧
      ∀ (es fs : List Event) (tokens : List Token), Event.Padded es fs →
        ofEvents? fs tokens = ofEvents? es tokens := by
  constructor
  · have hreplay := Scaffold.replay_events (node k ts) Scaffold.empty [] []
    rw [List.append_nil, List.append_nil] at hreplay
    rw [ofEvents?, hreplay]
    rfl
  · intro es fs tokens h
    rw [ofEvents?, ofEvents?, Scaffold.replay_padded h]

/-- A list in a list, with placeholders before, inside and after it. -/
theorem Tree.events_rebuild_nested :
    let opener : Tree := leaf ⟨.lparen, ['(']⟩
    let closer : Tree := leaf ⟨.rparen, [')']⟩
    let t : Tree := node .root [node .list [opener, node .list [opener, closer], closer]]
    let es : List Event := [.placeholder, .start .root, .start .list, .token .lparen, .placeholder,
      .placeholder, .start .list, .token .lparen, .token .rparen, .finish, .token .rparen, .finish,
      .finish, .placeholder]
    ofEvents? es t.leaves = .ok t := by
  intro opener closer t es
  obtain ⟨hbuild, hpad⟩ := events_rebuild .root
    [node .list [opener, node .list [opener, closer], closer]]
  have hpadded : Event.Padded t.events es :=
    .pad (.keep _ (.keep _ (.keep _ (.pad (.pad (.keep _ (.keep _ (.keep _ (.keep _ (.keep _
      (.keep _ (.keep _ (.pad .nil)))))))))))))
  exact (hpad t.events es t.leaves hpadded).trans hbuild

end SexpEdit
