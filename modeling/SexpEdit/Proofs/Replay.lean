/-
Events rebuild the tree that is read.

`Event.ofTokens` records the document of a row of tokens as events, keeping only the kinds of the
open nodes; `Tree.ofEvents?` builds a tree from events.  The reader `Tree.read` keeps the open nodes
themselves.  The two run side by side: while the reader is at a scaffold `s`, the builder is at
`s.underRoot`, which is `s` inside the open root.

* `replay_step` — the events of one token take the builder from `s` to `s.read t`;
* `ofEvents?_ofTokens` — so the events of a row of tokens are always followed to the end, and they
  build the tree that is read.
-/
import SexpEdit.Tree.Event
import SexpEdit.Tree.Reader

namespace SexpEdit

open Event

/-- The tokens that are forms on their own: no trivia, delimiters or prefixes. -/
def Kind.isAtomic (k : Kind) : Bool :=
  !(k.isTrivia || k.isOpener || k.isCloser || k == .readerPrefix)

/-- The sorts of token that a reader tells apart. -/
theorem Kind.sort (k : Kind) :
    (k = .whitespace ∨ k = .newline) ∨ k = .comment ∨ k.isCloser ∨ (∃ c, k.collection? = some c) ∨
      k = .readerPrefix ∨ k.isAtomic := by
  cases k <;> simp [isCloser, collection?, isAtomic, isTrivia, isOpener]

namespace Tree.Scaffold

/-! ### Reading by sort of token -/

theorem read_blank (s : Scaffold) {t : Token} (ht : t.kind = .whitespace ∨ t.kind = .newline) :
    s.read t = s.attach (.leaf t) := by
  unfold read
  rcases ht with ht | ht <;> rw [ht]

theorem read_comment (s : Scaffold) {t : Token} (ht : t.kind = .comment) :
    s.read t = s.settle.attach (.leaf t) := by
  unfold read
  rw [ht]

theorem read_closer (s : Scaffold) {t : Token} (ht : t.kind.isCloser) :
    s.read t = s.readCloser t := by
  unfold read
  cases hk : t.kind <;> simp_all [Kind.isCloser]

theorem read_opener (s : Scaffold) {t : Token} {k : Kind} (ht : t.kind.collection? = some k) :
    s.read t = (s.enter k).attach (.leaf t) := by
  unfold read
  cases hk : t.kind <;> simp_all [Kind.collection?]

theorem read_readerPrefix (s : Scaffold) {t : Token} (ht : t.kind = .readerPrefix) :
    s.read t = (s.enter .prefixed).attach (.leaf t) := by
  unfold read
  rw [ht]

theorem read_atomic (s : Scaffold) {t : Token} (ht : t.kind.isAtomic) :
    s.read t = s.supply (.node .atom [.leaf t]) := by
  unfold read
  cases hk : t.kind <;> simp_all [Kind.isAtomic, Kind.isTrivia, Kind.isOpener, Kind.isCloser]

/-! ### A scaffold inside the root -/

/-- The kinds of the open nodes, innermost first. -/
def kinds (s : Scaffold) : List Kind :=
  s.frames.map Frame.kind

/-- A scaffold inside the open root of a document. -/
def underRoot (s : Scaffold) : Scaffold :=
  ⟨[], s.frames ++ [⟨.root, s.top⟩]⟩

theorem underRoot_attach (s : Scaffold) (t : Tree) :
    s.underRoot.attach t = (s.attach t).underRoot := by
  obtain ⟨top, _ | ⟨f, fs⟩⟩ := s <;> rfl

theorem underRoot_enter (s : Scaffold) (k : Kind) :
    s.underRoot.enter k = (s.enter k).underRoot :=
  rfl

theorem leave?_underRoot (top : List Tree) (f : Frame) (fs : List Frame) :
    (underRoot ⟨top, f :: fs⟩).leave? = .ok (attach ⟨top, fs⟩ f.close).underRoot := by
  rw [← underRoot_attach]
  rfl

@[simp] theorem kinds_attach (s : Scaffold) (t : Tree) : (s.attach t).kinds = s.kinds := by
  obtain ⟨top, _ | ⟨f, fs⟩⟩ := s <;> rfl

@[simp] theorem kinds_enter (s : Scaffold) (k : Kind) : (s.enter k).kinds = k :: s.kinds :=
  rfl

/-! ### One event -/

theorem replay_token (s : Scaffold) (t : Token) (es : List Event) (ts : List Token) :
    s.underRoot.replay (.token t.kind :: es) (t :: ts)
      = (s.attach (.leaf t)).underRoot.replay es ts := by
  rw [replay, underRoot_attach]

theorem replay_start (s : Scaffold) (k : Kind) (es : List Event) (ts : List Token) :
    s.underRoot.replay (.start k :: es) ts = (s.enter k).underRoot.replay es ts := by
  rw [replay, underRoot_enter]

theorem replay_finish (top : List Tree) (f : Frame) (fs : List Frame) (es : List Event)
    (ts : List Token) :
    (underRoot ⟨top, f :: fs⟩).replay (.finish :: es) ts
      = (attach ⟨top, fs⟩ f.close).underRoot.replay es ts := by
  rw [replay, leave?_underRoot]

/-! ### Prefixes that are finished together -/

theorem waiting_cons_prefixed (ks : List Kind) : waiting (.prefixed :: ks) = waiting ks + 1 := by
  simp [waiting]

theorem waiting_cons_of_ne {k : Kind} (hk : k ≠ .prefixed) (ks : List Kind) :
    waiting (k :: ks) = 0 := by
  simp [waiting, hk]

/-- A finished form is added by `attach`; the prefixes that waited for it are finished by the events
for them. -/
theorem replay_waiting_attach (top : List Tree) (es : List Event) (ts : List Token) :
    ∀ (fs : List Frame) (t : Tree),
      (attach ⟨top, fs⟩ t).underRoot.replay (finishes (waiting (fs.map Frame.kind)) ++ es) ts
        = (supplyTo top fs t).underRoot.replay es ts := by
  intro fs
  induction fs with
  | nil =>
    intro t
    rfl
  | cons f fs ih =>
    intro t
    by_cases hf : f.kind = .prefixed
    · -- the prefix takes the form, and is in turn the finished form
      rw [List.map_cons, hf, waiting_cons_prefixed, supplyTo, if_pos hf, ← ih]
      exact replay_finish top (f.push t) fs _ ts
    · rw [List.map_cons, waiting_cons_of_ne hf, supplyTo, if_neg hf]
      rfl

theorem kinds_supplyTo (top : List Tree) : ∀ (fs : List Frame) (t : Tree),
    (supplyTo top fs t).kinds = (fs.map Frame.kind).drop (waiting (fs.map Frame.kind)) := by
  intro fs
  induction fs with
  | nil =>
    intro t
    rfl
  | cons f fs ih =>
    intro t
    by_cases hf : f.kind = .prefixed
    · rw [supplyTo, if_pos hf, ih, List.map_cons, hf, waiting_cons_prefixed, List.drop_succ_cons]
    · rw [supplyTo, if_neg hf, List.map_cons, waiting_cons_of_ne hf]
      rfl

theorem replay_waiting (s : Scaffold) (es : List Event) (ts : List Token) :
    s.underRoot.replay (finishes (waiting s.kinds) ++ es) ts = s.settle.underRoot.replay es ts := by
  obtain ⟨top, _ | ⟨f, fs⟩⟩ := s
  · rfl
  · by_cases hf : f.kind = .prefixed
    · simp only [kinds, List.map_cons, hf, waiting_cons_prefixed, settle, if_true]
      rw [← replay_waiting_attach]
      exact replay_finish top f fs _ ts
    · simp only [kinds, List.map_cons, waiting_cons_of_ne hf, settle, if_neg hf]
      rfl

theorem kinds_settle (s : Scaffold) : s.settle.kinds = s.kinds.drop (waiting s.kinds) := by
  obtain ⟨top, _ | ⟨f, fs⟩⟩ := s
  · rfl
  · by_cases hf : f.kind = .prefixed
    · simp only [kinds, List.map_cons, hf, waiting_cons_prefixed, settle, if_true,
        List.drop_succ_cons]
      exact kinds_supplyTo top fs f.close
    · simp only [kinds, List.map_cons, waiting_cons_of_ne hf, settle, if_neg hf, List.drop_zero]

/-! ### One token -/

/-- The events of a closer: the waiting prefixes are finished, and then it ends the innermost open
collection or stands alone in an error. -/
theorem step_closer {k : Kind} (hk : k.isCloser) (opened : List Kind) :
    step opened k =
      match opened.drop (waiting opened) with
      | o :: outer =>
        if o.ending? = some k then
          (finishes (waiting opened) ++ [.token k, .finish] ++ finishes (waiting outer),
            outer.drop (waiting outer))
        else (finishes (waiting opened) ++ [.start .error, .token k, .finish], o :: outer)
      | [] => (finishes (waiting opened) ++ [.start .error, .token k, .finish], []) := by
  cases k with
  | rparen | rbracket | rbrace =>
    simp only [step]
    generalize opened.drop (waiting opened) = settled
    cases settled <;> rfl
  | _ => simp [Kind.isCloser] at hk

theorem step_opener {k c : Kind} (hk : k.collection? = some c) (opened : List Kind) :
    step opened k = ([.start c, .token k], c :: opened) := by
  cases k <;> simp_all [Kind.collection?, step]

theorem step_atomic {k : Kind} (hk : k.isAtomic) (opened : List Kind) :
    step opened k =
      ([.start .atom, .token k, .finish] ++ finishes (waiting opened),
        opened.drop (waiting opened)) := by
  cases k <;> simp_all [Kind.isAtomic, Kind.isTrivia, Kind.isOpener, Kind.isCloser, step]

theorem replay_stray (s : Scaffold) (t : Token) (es : List Event) (ts : List Token) :
    s.underRoot.replay (.start .error :: .token t.kind :: .finish :: es) (t :: ts)
      = (s.attach (.node .error [.leaf t])).underRoot.replay es ts := by
  rw [replay_start, replay_token]
  exact replay_finish s.top ⟨.error, [.leaf t]⟩ s.frames es ts

theorem replay_readCloser (s : Scaffold) {t : Token} (ht : t.kind.isCloser) (es : List Event)
    (ts : List Token) :
    s.underRoot.replay ((step s.kinds t.kind).1 ++ es) (t :: ts)
        = (s.readCloser t).underRoot.replay es ts ∧
      (step s.kinds t.kind).2 = (s.readCloser t).kinds := by
  rw [step_closer ht, readCloser, ← kinds_settle]
  rcases hs : s.settle with ⟨top, _ | ⟨f, fs⟩⟩
  · -- nothing is open: the closer is an error
    refine ⟨?_, rfl⟩
    simp only [kinds, List.map_nil, List.append_assoc, List.cons_append, List.nil_append]
    rw [← kinds, replay_waiting, hs]
    exact replay_stray ⟨top, []⟩ t es ts
  · by_cases hf : f.kind.ending? = some t.kind
    · -- it ends the innermost collection, and the prefixes that waited for that
      have hkinds : kinds ⟨top, f :: fs⟩ = f.kind :: fs.map Frame.kind := rfl
      simp only [hkinds, if_pos hf, kinds_supplyTo, and_true]
      simp only [List.append_assoc, List.cons_append, List.nil_append]
      rw [replay_waiting, hs, replay_token, ← replay_waiting_attach]
      exact replay_finish top (f.push (.leaf t)) fs _ ts
    · -- it ends some other collection: an error inside the innermost one
      have hkinds : kinds ⟨top, f :: fs⟩ = f.kind :: fs.map Frame.kind := rfl
      simp only [hkinds, if_neg hf]
      refine ⟨?_, rfl⟩
      simp only [List.append_assoc, List.cons_append, List.nil_append]
      rw [replay_waiting, hs]
      exact replay_stray ⟨top, f :: fs⟩ t es ts

theorem replay_enter (s : Scaffold) (k : Kind) (t : Token) (es : List Event) (ts : List Token) :
    s.underRoot.replay ([.start k, .token t.kind] ++ es) (t :: ts)
      = ((s.enter k).attach (.leaf t)).underRoot.replay es ts := by
  rw [List.cons_append, List.cons_append, List.nil_append, replay_start, replay_token]

theorem replay_atom (s : Scaffold) (t : Token) (es : List Event) (ts : List Token) :
    s.underRoot.replay ([.start .atom, .token t.kind, .finish] ++ finishes (waiting s.kinds) ++ es)
        (t :: ts)
      = (s.supply (.node .atom [.leaf t])).underRoot.replay es ts := by
  simp only [List.cons_append, List.nil_append]
  rw [replay_start, replay_token, supply, ← replay_waiting_attach]
  exact replay_finish s.top ⟨.atom, [.leaf t]⟩ s.frames _ ts

/-- The events of one token, by `step`, take the builder along with `read`. -/
theorem replay_step (s : Scaffold) (t : Token) (es : List Event) (ts : List Token) :
    s.underRoot.replay ((step s.kinds t.kind).1 ++ es) (t :: ts)
        = (s.read t).underRoot.replay es ts ∧
      (step s.kinds t.kind).2 = (s.read t).kinds := by
  rcases t.kind.sort with ht | ht | ht | ⟨c, ht⟩ | ht | ht
  · have hstep : step s.kinds t.kind = ([.token t.kind], s.kinds) := by
      rcases ht with ht | ht <;> rw [ht] <;> rfl
    rw [hstep, read_blank s ht, kinds_attach]
    exact ⟨replay_token s t es ts, rfl⟩
  · have hstep : step s.kinds t.kind
        = (finishes (waiting s.kinds) ++ [.token t.kind], s.kinds.drop (waiting s.kinds)) := by
      rw [ht]
      rfl
    rw [hstep, read_comment s ht, kinds_attach, kinds_settle, List.append_assoc, replay_waiting]
    exact ⟨replay_token s.settle t es ts, rfl⟩
  · rw [read_closer s ht]
    exact replay_readCloser s ht es ts
  · rw [step_opener ht, read_opener s ht, kinds_attach, kinds_enter]
    exact ⟨replay_enter s c t es ts, rfl⟩
  · have hstep : step s.kinds t.kind
        = ([.start .prefixed, .token t.kind], .prefixed :: s.kinds) := by
      rw [ht]
      rfl
    rw [hstep, read_readerPrefix s ht, kinds_attach, kinds_enter]
    exact ⟨replay_enter s .prefixed t es ts, rfl⟩
  · rw [step_atomic ht, read_atomic s ht]
    exact ⟨replay_atom s t es ts, (kinds_supplyTo s.top s.frames _).symm⟩

/-! ### The whole run -/

/-- The nodes that are open at the end are finished one inside the other, by `finishes`. -/
theorem replay_finishes (es : List Event) (ts : List Token) :
    ∀ (fs : List Frame) (top : List Tree) (t : Tree),
      (attach ⟨top, fs⟩ t).underRoot.replay (finishes fs.length ++ es) ts
        = (underRoot ⟨closeOver top t fs, []⟩).replay es ts := by
  intro fs
  induction fs with
  | nil =>
    intro top t
    rfl
  | cons f fs ih =>
    intro top t
    rw [closeOver, ← ih]
    exact replay_finish top (f.push t) fs _ ts

/-- The events of the end of the text, and the one that finishes the root. -/
theorem replay_end (s : Scaffold) :
    s.underRoot.replay (emit s.kinds [] ++ [.finish]) [] = .ok ⟨[s.finish], []⟩ := by
  obtain ⟨top, _ | ⟨f, fs⟩⟩ := s
  · rfl
  · -- the innermost open node is finished as it is, and then each of the others takes one more tree
    have h := replay_finish top f fs (finishes fs.length ++ [.finish]) []
    rw [replay_finishes] at h
    simp only [kinds, List.map_cons, emit, List.length_cons, List.length_map]
    exact h

/-- The events that `emit` gives for a row of tokens take the builder to the end of the document. -/
theorem replay_emit : ∀ (ts : List Token) (s : Scaffold),
    s.underRoot.replay (emit s.kinds ts ++ [.finish]) ts
      = .ok ⟨[(ts.foldl read s).finish], []⟩ := by
  intro ts
  induction ts with
  | nil =>
    intro s
    exact replay_end s
  | cons t ts ih =>
    intro s
    -- the kinds that the step leaves open are those of the scaffold after the token
    obtain ⟨hreplay, hkinds⟩ := replay_step s t (emit (s.read t).kinds ts ++ [.finish]) ts
    show s.underRoot.replay
      ((step s.kinds t.kind).1 ++ emit (step s.kinds t.kind).2 ts ++ [.finish]) (t :: ts) = _
    rw [hkinds, List.append_assoc, hreplay, List.foldl_cons]
    exact ih (s.read t)

end Tree.Scaffold

/-- **Events never fail**: those of a row of tokens build the tree that `Tree.read` gives. -/
theorem Tree.ofEvents?_ofTokens (ts : List Token) :
    Tree.ofEvents? (Event.ofTokens ts) ts = .ok (Tree.read ts) := by
  have h := Scaffold.replay_emit ts Scaffold.empty
  rw [Tree.ofEvents?, Event.ofTokens, Scaffold.replay]
  rw [show Scaffold.empty.enter .root = Scaffold.empty.underRoot from rfl,
    show [] = Scaffold.empty.kinds from rfl, h]
  obtain ⟨k, cs, hroot⟩ : ∃ k cs, (ts.foldl Scaffold.read Scaffold.empty).finish = .node k cs := by
    unfold Scaffold.finish
    split
    · exact ⟨_, _, rfl⟩
    · exact ⟨_, _, rfl⟩
  rw [Tree.read, hroot]
  rfl

end SexpEdit
