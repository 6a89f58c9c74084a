/-
Markers that are given up leave no trace.

A marker is the position of a placeholder among the recorded events, and giving up some other marker
may take the last event away.  One invariant says that this never hurts a marker that is still open:
the open markers have different slots, and each of these slots holds a placeholder
(`Recorder.Reserves`).  Every operation on markers keeps it, in whatever order they are used.

A document is recorded through markers as well.  A recorder in the middle of that is compared with
the events that it would hold if every pending slot were filled (`Recorder.filled`): each operation
adds one event at the end of those, so nothing that stands before is touched.

* `Reserves.abandon` — any open marker can be given up, and the others stay open;
* `record_of_replay` — events that a builder follows until no node is open can be recorded, behind
  anything, and are recorded as they are;
* `Recorder.abandoned_markers_inert` — opening and giving up markers, in any order, does not change
  the tree that is read afterwards.
-/
import Mathlib.Data.List.Perm.Basic
import SexpEdit.Proofs.Rebuilding
import SexpEdit.Proofs.Replay

namespace SexpEdit

open SexpEdit.Tree

theorem Tree.Scaffold.length_frames_attach (s : Scaffold) (t : Tree) :
    (s.attach t).frames.length = s.frames.length := by
  obtain ⟨top, _ | ⟨f, fs⟩⟩ := s <;> rfl

/-- Placeholders may stand before any events: these are `Padded` by them. -/
theorem Event.padded_append {ps : List Event} (h : ∀ e ∈ ps, e = .placeholder) :
    ∀ es : List Event, Padded es (ps ++ es) := by
  induction ps with
  | nil =>
    intro es
    induction es with
    | nil => exact .nil
    | cons e es ih => exact .keep e ih
  | cons p ps ih =>
    intro es
    obtain rfl : p = .placeholder := h p List.mem_cons_self
    exact .pad (ih (fun e he => h e (List.mem_cons_of_mem _ he)) es)

namespace Recorder

variable {r : Recorder} {m : Marker} {ms ns : List Marker}

/-! ### Open markers -/

/-- The markers have different slots, and every slot holds a placeholder. -/
structure Reserves (r : Recorder) (ms : List Marker) : Prop where
  distinct : (ms.map Marker.slot).Nodup
  held : ∀ m ∈ ms, r.events[m.slot]? = some .placeholder

namespace Reserves

theorem nil (r : Recorder) : r.Reserves [] :=
  ⟨List.nodup_nil, List.forall_mem_nil _⟩

theorem perm (h : r.Reserves ms) (hperm : ms.Perm ns) : r.Reserves ns :=
  ⟨(hperm.map Marker.slot).nodup_iff.1 h.distinct, fun m hm => h.held m (hperm.mem_iff.2 hm)⟩

theorem slot_lt (h : r.Reserves ms) (hm : m ∈ ms) : m.slot < r.events.length := by
  obtain ⟨hlt, -⟩ := List.getElem?_eq_some_iff.1 (h.held m hm)
  exact hlt

theorem slot_ne (h : r.Reserves (m :: ms)) {n : Marker} (hn : n ∈ ms) : m.slot ≠ n.slot := by
  have hnot := (List.nodup_cons.1 h.distinct).1
  exact fun heq => hnot (heq ▸ List.mem_map_of_mem hn)

/-- A recorder that still has the placeholders of the other markers `Reserves` these. -/
theorem tail (h : r.Reserves (m :: ms)) {r' : Recorder}
    (hheld : ∀ n ∈ ms, n.slot ≠ m.slot → n.slot < r.events.length →
      r'.events[n.slot]? = r.events[n.slot]?) : r'.Reserves ms where
  distinct := (List.nodup_cons.1 h.distinct).2
  held n hn := by
    have hmem : n ∈ m :: ms := List.mem_cons_of_mem m hn
    rw [hheld n hn (h.slot_ne hn).symm (h.slot_lt hmem)]
    exact h.held n hmem

theorem put (h : r.Reserves ms) (e : Event) : (r.put e).Reserves ms where
  distinct := h.distinct
  held m hm := by
    rw [Recorder.put, List.getElem?_append_left (h.slot_lt hm)]
    exact h.held m hm

/-- A new `mark` is none of the open ones: its slot is past theirs. -/
theorem mark (h : r.Reserves ms) : r.mark.2.Reserves (r.mark.1 :: ms) where
  distinct := by
    refine List.nodup_cons.2 ⟨?_, h.distinct⟩
    intro hmem
    obtain ⟨n, hn, hslot⟩ := List.mem_map.1 hmem
    exact absurd (h.slot_lt hn) (hslot ▸ Nat.lt_irrefl r.events.length)
  held n hn := by
    rcases List.mem_cons.1 hn with rfl | hn
    · exact List.getElem?_concat_length
    · exact (h.put .placeholder).held n hn

/-- **Any open marker can be given up**, and the others stay open.  At most the last event is taken
away. -/
theorem abandon (h : r.Reserves (m :: ms)) :
    ∃ r', r.abandon m = some r' ∧ r'.Reserves ms ∧ r'.tokens = r.tokens ∧
      r'.events <+: r.events := by
  have hplace : r.events[m.slot]? = some .placeholder := h.held m List.mem_cons_self
  have hlt : m.slot < r.events.length := h.slot_lt List.mem_cons_self
  by_cases hlast : m.slot + 1 = r.events.length
  · have hend : r.events.getLast? = some .placeholder := by
      rw [List.getLast?_eq_getElem?, ← hlast, Nat.add_sub_cancel, hplace]
    refine ⟨{ r with events := r.events.dropLast }, ?_, h.tail ?_, rfl, List.dropLast_prefix _⟩
    · rw [Recorder.abandon, hend]
      exact (if_pos hlast).trans (if_pos rfl)
    · -- another slot is below the last one, so it is not taken away
      intro n _ hne hn
      rw [List.getElem?_dropLast, if_pos (by omega)]
  · obtain ⟨e, hend⟩ : ∃ e, r.events.getLast? = some e :=
      ⟨_, List.getLast?_eq_some_getLast (List.ne_nil_of_length_pos (Nat.zero_lt_of_lt hlt))⟩
    refine ⟨r, ?_, h.tail fun _ _ _ _ => rfl, rfl, List.prefix_rfl⟩
    rw [Recorder.abandon, hend]
    exact if_neg hlast

/-- A slot that `complete` was run on holds the start of its node, and the others stay open. -/
theorem complete (h : r.Reserves (m :: ms)) (k : Kind) :
    ∃ r', r.complete m k = some r' ∧ r'.Reserves ms ∧ r'.tokens = r.tokens ∧
      r'.events = r.events.set m.slot (.start k) ++ [.finish] := by
  refine ⟨_, if_pos (h.held m List.mem_cons_self), h.tail ?_, rfl, rfl⟩
  intro n _ hne hn
  rw [Recorder.put, List.getElem?_append_left (by rwa [List.length_set]),
    List.getElem?_set_ne hne.symm]

end Reserves

/-! ### Recording a document -/

/-- The events `es` once every pending slot holds the start of its node. -/
def fill (es : List Event) : List Pending → List Event
  | [] => es
  | n :: ns => fill (es.set n.marker.slot (.start n.kind)) ns

/-- The events of a `Recorder` with the slots of the open markers filled, see `fill`. -/
def filled (r : Recorder) (opened : List Pending) : List Event :=
  fill r.events opened

theorem fill_append (fs : List Event) : ∀ (opened : List Pending) (es : List Event),
    (∀ n ∈ opened, n.marker.slot < es.length) → fill (es ++ fs) opened = fill es opened ++ fs
  | [], _, _ => rfl
  | n :: ns, es, h => by
    rw [fill, fill, List.set_append_left _ _ (h n List.mem_cons_self)]
    refine fill_append fs ns _ fun n' hn' => ?_
    rw [List.length_set]
    exact h n' (List.mem_cons_of_mem n hn')

/-- The nodes `opened`, which are being recorded, have their slots reserved. -/
def Holds (r : Recorder) (opened : List Pending) : Prop :=
  r.Reserves (opened.map Pending.marker)

variable {opened : List Pending}

theorem Holds.slot_lt (h : r.Holds opened) : ∀ n ∈ opened, n.marker.slot < r.events.length :=
  fun _ hn => Reserves.slot_lt h (List.mem_map_of_mem hn)

theorem Holds.filled_put (h : r.Holds opened) (e : Event) :
    (r.put e).filled opened = r.filled opened ++ [e] :=
  fill_append [e] opened r.events h.slot_lt

/-- The slot of a node that starts is `filled` at the end of all other events. -/
theorem Holds.filled_mark (h : r.Holds opened) (k : Kind) :
    r.mark.2.filled (⟨k, r.mark.1⟩ :: opened) = r.filled opened ++ [.start k] := by
  have hset : (r.events ++ [Event.placeholder]).set r.events.length (.start k)
      = r.events ++ [.start k] := by
    rw [List.set_append_right _ _ (Nat.le_refl _), Nat.sub_self]
    rfl
  show fill ((r.events ++ [Event.placeholder]).set r.events.length (.start k)) opened = _
  rw [hset]
  exact fill_append [.start k] opened r.events h.slot_lt

/-- Completing the innermost node fills its slot for good: what is `filled` only gets longer. -/
theorem Holds.complete {n : Pending} (h : r.Holds (n :: opened)) :
    ∃ r', r.complete n.marker n.kind = some r' ∧ r'.Holds opened ∧ r'.tokens = r.tokens ∧
      r'.filled opened = r.filled (n :: opened) ++ [.finish] := by
  obtain ⟨r', hcomplete, hholds, htokens, hevents⟩ := Reserves.complete h n.kind
  refine ⟨r', hcomplete, hholds, htokens, ?_⟩
  rw [filled, hevents]
  refine fill_append [.finish] opened _ fun n' hn' => ?_
  rw [List.length_set]
  exact h.slot_lt n' (List.mem_cons_of_mem n hn')

-- The builder and the recorder have the same number of nodes open.  The builder comes to an end with
-- none open, so no slot is left over, and a node that finishes always has one.
/-- **Events that a builder can `replay` can be recorded**, and are recorded as they are, behind
what was recorded before. -/
theorem record_of_replay : ∀ (es : List Event) (us : List Token) (s s' : Scaffold) (r : Recorder)
    (opened : List Pending), s.replay es us = .ok s' → s'.frames = [] →
    opened.length = s.frames.length → r.Holds opened →
      r.record opened es = some ⟨r.tokens, r.filled opened ++ es⟩ := by
  intro es
  induction es with
  | nil =>
    intro us s s' r opened hreplay hclosed hlength _
    rw [Scaffold.replay, Except.ok.injEq] at hreplay
    rw [hreplay, hclosed] at hlength
    obtain rfl : opened = [] := List.length_eq_zero_iff.1 hlength
    rw [List.append_nil]
    rfl
  | cons e es ih =>
    intro us s s' r opened hreplay hclosed hlength hholds
    rw [← List.singleton_append, ← List.append_assoc]
    cases e with
    | start k =>
      rw [List.singleton_append, record, ← hholds.filled_mark]
      refine ih us (s.enter k) s' _ _ hreplay hclosed ?_ (Reserves.mark hholds)
      exact congrArg (· + 1) hlength
    | token k =>
      cases us with
      | nil => cases hreplay
      | cons u us =>
        rw [List.singleton_append, record, ← hholds.filled_put]
        refine ih us _ s' _ opened hreplay hclosed ?_ (Reserves.put hholds _)
        rw [hlength, Scaffold.length_frames_attach]
    | placeholder =>
      rw [List.singleton_append, record, ← hholds.filled_put]
      exact ih us s s' _ opened hreplay hclosed hlength (Reserves.put hholds _)
    | finish =>
      obtain ⟨top, _ | ⟨f, fs⟩⟩ := s
      · cases hreplay
      · obtain ⟨n, outer, rfl⟩ : ∃ n outer, opened = n :: outer :=
          List.exists_cons_of_length_eq_add_one hlength
        obtain ⟨r', hcomplete, hholds', htokens, hfilled⟩ := hholds.complete
        rw [List.singleton_append, record, hcomplete, ← hfilled, ← htokens]
        refine ih us _ s' r' outer hreplay hclosed ?_ hholds'
        rw [Scaffold.length_frames_attach]
        exact Nat.succ.inj hlength

/-- The events `Event.ofTokens` of a document are recorded behind anything. -/
theorem record_ofTokens (r : Recorder) (ts : List Token) :
    r.record [] (Event.ofTokens ts) = some ⟨r.tokens, r.events ++ Event.ofTokens ts⟩ := by
  have hreplay : Scaffold.empty.replay (Event.ofTokens ts) ts
      = .ok ⟨[(ts.foldl Scaffold.read Scaffold.empty).finish], []⟩ :=
    Scaffold.replay_emit ts Scaffold.empty
  exact record_of_replay _ ts _ _ r [] hreplay rfl rfl (Reserves.nil r)

theorem tree?_eq (r : Recorder) :
    r.tree? = ofEvents? (r.events ++ Event.ofTokens r.tokens) r.tokens := by
  rw [tree?, record_ofTokens]

/-! ### Steps before a document is read -/

/-- Only markers have been opened and given up: nothing is recorded but placeholders. -/
structure Idle (r : Recorder) (tokens : List Token) (opened : List Marker) : Prop where
  tokens_eq : r.tokens = tokens
  blank : ∀ e ∈ r.events, e = .placeholder
  reserves : r.Reserves opened

variable {tokens : List Token} {markers : List Marker}

theorem idle_ofTokens (tokens : List Token) : (ofTokens tokens).Idle tokens [] :=
  ⟨rfl, List.forall_mem_nil _, Reserves.nil _⟩

theorem Idle.mark (h : r.Idle tokens markers) :
    r.mark.2.Idle tokens (markers ++ [r.mark.1]) where
  tokens_eq := h.tokens_eq
  blank e he := by
    rcases List.mem_append.1 he with he | he
    · exact h.blank e he
    · exact List.mem_singleton.1 he
  reserves := h.reserves.mark.perm (List.perm_append_singleton r.mark.1 markers).symm

theorem Idle.abandon (h : r.Idle tokens ms) (hperm : ms.Perm (m :: ns)) :
    ∃ r', r.abandon m = some r' ∧ r'.Idle tokens ns := by
  obtain ⟨r', habandon, hreserves, htokens, hevents⟩ := (h.reserves.perm hperm).abandon
  exact ⟨r', habandon, htokens.trans h.tokens_eq,
    fun e he => h.blank e (hevents.mem he), hreserves⟩

/-- When all open markers are given up by `abandonAll`, in any order, no step fails and the recorder
is still `Idle`. -/
theorem Idle.abandonAll (h : r.Idle tokens ms) (hperm : ms.Perm ns) :
    ∃ r', r.abandonAll ns = some r' ∧ r'.Idle tokens [] := by
  induction ns generalizing r ms with
  | nil => exact ⟨r, rfl, hperm.eq_nil ▸ h⟩
  | cons n ns ih =>
    obtain ⟨r₁, habandon, hidle⟩ := h.abandon hperm
    obtain ⟨r', hall, hidle'⟩ := ih hidle (List.Perm.refl ns)
    exact ⟨r', by rw [Recorder.abandonAll, habandon]; exact hall, hidle'⟩

/-- The `tree?` of an idle recorder does not depend on the placeholders before the document. -/
theorem Idle.tree? (h : r.Idle tokens markers) : r.tree? = .ok (Tree.read tokens) := by
  have hpadded : Event.Padded (Event.ofTokens tokens) (r.events ++ Event.ofTokens tokens) :=
    Event.padded_append h.blank _
  rw [tree?_eq, h.tokens_eq, ofEvents?, Scaffold.replay_padded hpadded]
  exact ofEvents?_ofTokens tokens

/-- The steps give up open markers only, when `n` markers are open at first. -/
def Step.Fits : Nat → List Step → Prop
  | _, [] => True
  | n, .mark :: ss => Fits (n + 1) ss
  | n, .abandon i :: ss => i < n ∧ Fits (n - 1) ss

instance Step.decidableFits : ∀ (n : Nat) (ss : List Step), Decidable (Fits n ss)
  | _, [] => inferInstanceAs (Decidable True)
  | n, .mark :: ss => decidableFits (n + 1) ss
  | n, .abandon i :: ss =>
    have := decidableFits (n - 1) ss
    inferInstanceAs (Decidable (i < n ∧ Fits (n - 1) ss))

/-- An open marker is given up by `step`, whichever it is. -/
theorem Idle.step_abandon (h : r.Idle tokens markers) {i : Nat} (hi : i < markers.length) :
    ∃ r', r.step markers (.abandon i) = some (r', markers.eraseIdx i) ∧
      r'.Idle tokens (markers.eraseIdx i) := by
  obtain ⟨r', habandon, hidle⟩ := h.abandon (List.getElem_cons_eraseIdx_perm hi).symm
  refine ⟨r', ?_, hidle⟩
  simp only [step, List.getElem?_eq_getElem hi, habandon]

theorem Idle.run {ss : List Step} (h : r.Idle tokens markers)
    (hfits : Step.Fits markers.length ss) :
    ∃ r' markers', r.run markers ss = some (r', markers') ∧ r'.Idle tokens markers' := by
  induction ss generalizing r markers with
  | nil => exact ⟨r, markers, rfl, h⟩
  | cons s ss ih =>
    cases s with
    | mark =>
      refine ih h.mark ?_
      rw [List.length_append]
      exact hfits
    | abandon i =>
      obtain ⟨hi, hrest⟩ := hfits
      obtain ⟨r₁, hstep, hidle⟩ := h.step_abandon hi
      rw [← List.length_eraseIdx_of_lt hi] at hrest
      rw [Recorder.run, hstep]
      exact ih hidle hrest

/-- **Markers that are given up leave no trace.**  Over any tokens, markers are opened and open ones
given up, in any order, and then those still open are given up, the last one first.  No step fails,
and the tree read afterwards is the one that is read without all this. -/
theorem abandoned_markers_inert (tokens : List Token) (ss : List Step) (h : Step.Fits 0 ss) :
    ∃ r opened r', (ofTokens tokens).run [] ss = some (r, opened) ∧
      r.abandonAll opened.reverse = some r' ∧
      r'.tree? = (ofTokens tokens).tree? ∧
      (ofTokens tokens).tree? = .ok (Tree.read tokens) := by
  obtain ⟨r, opened, hrun, hidle⟩ := (idle_ofTokens tokens).run h
  obtain ⟨r', hall, hidle'⟩ := hidle.abandonAll (List.reverse_perm opened).symm
  have htree := (idle_ofTokens tokens).tree?
  exact ⟨r, opened, r', hrun, hall, hidle'.tree?.trans htree.symm, htree⟩

/-- Three markers; the second is given up and its placeholder stays, the third is taken back and its
slot is given out again, and then the first is given up. -/
theorem abandoned_markers_inert_reused :
    let tokens : List Token := [⟨.readerPrefix, ['#']⟩, ⟨.lparen, ['(']⟩, ⟨.symbol, ['x']⟩]
    let ss : List Step := [.mark, .mark, .mark, .abandon 1, .abandon 1, .mark, .abandon 0]
    Step.Fits 0 ss ∧
      (ofTokens tokens).run [] ss
        = some (⟨tokens, [.placeholder, .placeholder, .placeholder]⟩, [⟨2⟩]) ∧
      ∃ r', abandonAll ⟨tokens, [.placeholder, .placeholder, .placeholder]⟩ [⟨2⟩] = some r' ∧
        r'.tree? = .ok (Tree.read tokens) := by
  intro tokens ss
  have hfits : Step.Fits 0 ss := by decide
  have hrun : (ofTokens tokens).run [] ss
      = some (⟨tokens, [.placeholder, .placeholder, .placeholder]⟩, [⟨2⟩]) := rfl
  obtain ⟨r, opened, r', hrun', hall, hsame, htree⟩ := abandoned_markers_inert tokens ss hfits
  rw [hrun, Option.some.injEq, Prod.mk.injEq] at hrun'
  obtain ⟨rfl, rfl⟩ := hrun'
  exact ⟨hfits, hrun, r', hall, hsame.trans htree⟩

end Recorder

end SexpEdit
