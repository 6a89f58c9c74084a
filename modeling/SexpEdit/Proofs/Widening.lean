/-
Narrowing takes widening back.

The structural range around a selection holds it and lies in the text.  A widening puts that range
on top of the selection it replaces, so while nothing else happens the history is a chain: the
selection is its top, and holds the one below.  On such a chain a narrowing is the inverse of a
widening.  A widening that finds nothing wider selects the same range once more, and that counts as
a step too.

* `Document.expansion_bounds` — the range that a selection is widened to;
* `Climbed.run_expand` — a widening keeps the chain, and a narrowing takes it back;
* `contract_undoes_expand` — so as many narrowings as there were widenings restore every selection
  on the way, and one more does nothing.
-/
import SexpEdit.Proofs.Extent
import SexpEdit.Proofs.UndoStep

namespace SexpEdit

/-! ### Selections in a text -/

namespace Selection

/-- The selection `s` lies in a text of that length, and its cursor is one of its ends. -/
structure Valid (length : Nat) (s : Selection) : Prop where
  start_le : s.start ≤ s.stop
  stop_le : s.stop ≤ length
  cursor_eq : s.cursor = s.start ∨ s.cursor = s.stop

theorem valid_between {length a c : Nat} (ha : a ≤ length) (hc : c ≤ length) :
    (between a c).Valid length := by
  constructor
  · exact Nat.le_trans (Nat.min_le_left a c) (Nat.le_max_left a c)
  · exact Nat.max_le.mpr ⟨ha, hc⟩
  · show c = min a c ∨ c = max a c
    omega

theorem valid_clamp (length : Nat) (s : Selection) : (s.clamp length).Valid length :=
  valid_between (Nat.min_le_right _ _) (Nat.min_le_right _ _)

/-- A `clamp` moves no end of a `Valid` selection. -/
theorem Valid.clamp_eq {length : Nat} {s : Selection} (h : s.Valid length) :
    s.clamp length = s := by
  obtain ⟨start, stop, cursor⟩ := s
  obtain ⟨hle, hstop, hcursor⟩ := h
  simp only at hle hstop hcursor
  simp only [clamp, between, anchor, mk.injEq]
  split <;> omega

end Selection

/-! ### The range around a selection -/

namespace Document

/-- One of the `structuralRanges` lies in the text. -/
theorem stop_le_of_mem_structuralRanges {d : Document} {r : Nat × Nat}
    (h : r ∈ d.structuralRanges) : r.2 ≤ d.length := by
  obtain ⟨f, hf, hr⟩ := List.mem_flatMap.mp h
  have hplaced := placed_of_mem_nodes (List.mem_filter.mp hf).1
  have hstop : f.stop ≤ d.length := hplaced.stop_le
  by_cases hk : f.isCollection
  · rw [if_pos hk] at hr
    have hinner := (hplaced.framed hk).inner_bounds.2
    rcases List.mem_pair.mp hr with rfl | rfl
    · exact hstop
    · exact hinner.trans hstop
  · rw [if_neg hk, List.mem_singleton] at hr
    rw [hr]
    exact hstop

/-- The `expansion` of a range holds it and lies in the text. -/
theorem expansion_bounds {d : Document} {a b : Nat} (hb : b ≤ d.length) :
    ∃ x y, d.expansion a b = .span x y ∧ x ≤ a ∧ b ≤ y ∧ y ≤ d.length := by
  unfold expansion
  dsimp only
  split
  · next r hr =>
    obtain ⟨hmem, hwider⟩ := List.mem_filter.mp (mem_of_narrowest? hr)
    simp only [Bool.and_eq_true, decide_eq_true_eq] at hwider
    exact ⟨r.1, r.2, rfl, hwider.1.1, hwider.1.2, stop_le_of_mem_structuralRanges hmem⟩
  · exact ⟨a, b, rfl, Nat.le_refl a, Nat.le_refl b, hb⟩

end Document

namespace Host

theorem valid_currentSelection (h : Host) : h.currentSelection.Valid h.length :=
  Selection.valid_clamp _ _

/-- What the selection of `h` is widened to. -/
def wider (h : Host) : Selection :=
  .ofDestination (h.document.expansion h.currentSelection.start h.currentSelection.stop)

theorem wider_spec (h : Host) : h.wider.Valid h.length ∧ h.wider.contains h.currentSelection := by
  obtain ⟨hle, hstop, -⟩ := h.valid_currentSelection
  obtain ⟨x, y, heq, hx, hy, hlength⟩ :=
    Document.expansion_bounds (d := h.document) (a := h.currentSelection.start) hstop
  have hy' : y ≤ h.length := hlength
  have hwider : h.wider = .between x y := by
    rw [wider, heq]
    rfl
  rw [hwider]
  constructor
  · exact Selection.valid_between (by omega) hy'
  · rw [Selection.contains, Bool.and_eq_true, decide_eq_true_eq, decide_eq_true_eq]
    show min x y ≤ _ ∧ _ ≤ max x y
    omega

/-- A selection in the text is seen as it is. -/
theorem currentSelection_select {h : Host} {s : Selection} (hs : s.Valid h.length) :
    (h.select s).currentSelection = s :=
  hs.clamp_eq

end Host

/-! ### Up and down -/

namespace Workbench

/-- What the operation `op` says it did. -/
def outcome (w : Workbench) (op : Operation) : Except Failure Outcome :=
  (w.session.run op w.host w.clipboard).1

/-- The selection as operations see it: moved into the document. -/
def live (w : Workbench) : Selection :=
  w.host.currentSelection

/-- The workbench after the operation `op` is run so many times. -/
def repeated (w : Workbench) (op : Operation) : Nat → Workbench
  | 0 => w
  | n + 1 => (w.repeated op n).run op

theorem repeated_succ (w : Workbench) (op : Operation) (n : Nat) :
    w.repeated op (n + 1) = (w.run op).repeated op n := by
  induction n with
  | zero => rfl
  | succ n ih => rw [repeated, ih, repeated]

/-- The workbench with the selection `s`, and a history that has it on top of `below`. -/
def withFrames (w : Workbench) (s : Selection) (below : List Selection) : Workbench :=
  { w with session := { w.session with expansion := ⟨s :: below⟩ }, host := w.host.select s }

/-- Structural editing is on, for the language of the document. -/
def IsOn (w : Workbench) : Prop :=
  w.session.enabled = true ∧ w.session.supports w.host.buffer.language = true

theorem IsOn.runs {w : Workbench} (h : w.IsOn) :
    (!w.session.enabled || !w.session.supports w.host.buffer.language) = false := by
  rw [h.1, h.2]
  rfl

/-- The operation `expand` puts the wider selection on the history that applies, or on the selection
that it replaces. -/
theorem IsOn.expand {w : Workbench} (h : w.IsOn) :
    w.outcome .expand = .ok (.selected w.host.wider) ∧
      w.run .expand = w.withFrames w.host.wider
        (if w.session.expansion.appliesTo w.live then w.session.expansion.frames
          else [w.live]) := by
  have hrun : w.session.run .expand w.host w.clipboard =
      (.ok (.selected w.host.wider),
        (w.withFrames w.host.wider
          (if w.session.expansion.appliesTo w.live then w.session.expansion.frames
            else [w.live])).session, w.host.select w.host.wider, w.clipboard) := by
    rw [Session.run, h.runs]
    rfl
  constructor
  · rw [outcome, hrun]
  · rw [run, hrun]
    rfl

/-- The operation `contract` goes back to the selection below, if the one that is seen holds it. -/
theorem IsOn.contract {w : Workbench} (h : w.IsOn) {top s : Selection} {below : List Selection}
    (hframes : w.session.expansion.frames = top :: s :: below) (hs : w.live.contains s = true) :
    w.outcome .contract = .ok (.selected s) ∧ w.run .contract = w.withFrames s below := by
  have hx : w.session.expansion.contract w.host = (some s, ⟨s :: below⟩, w.host.select s) := by
    rw [Expansion.contract, hframes]
    exact if_pos hs
  have hrun : w.session.run .contract w.host w.clipboard =
      (.ok (.selected s), (w.withFrames s below).session, w.host.select s, w.clipboard) := by
    rw [Session.run, h.runs]
    simp only [Bool.false_eq_true, if_false, hx]
    rfl
  constructor
  · rw [outcome, hrun]
  · rw [run, hrun]
    rfl

/-- With nothing below the top `contract` has nothing to go back to. -/
theorem IsOn.contract_end {w : Workbench} (h : w.IsOn)
    (hframes : w.session.expansion.frames.length ≤ 1) :
    w.outcome .contract = .ok .unchanged ∧ w.run .contract = w := by
  have hx : w.session.expansion.contract w.host = (none, w.session.expansion, w.host) := by
    rw [Expansion.contract]
    split
    · next heq =>
      rw [heq, List.length_cons, List.length_cons] at hframes
      omega
    · rfl
  have hrun : w.session.run .contract w.host w.clipboard =
      (.ok .unchanged, w.session, w.host, w.clipboard) := by
    rw [Session.run, h.runs]
    simp only [Bool.false_eq_true, if_false, hx]
  constructor
  · rw [outcome, hrun]
  · rw [run, hrun]

/-- The selection is the top of the history, it was shown when it was made, and it holds the one
below. -/
structure Climbed (w : Workbench) : Prop where
  isOn : w.IsOn
  shown : w.host.select w.live = w.host
  chain : ∃ below, w.session.expansion.frames = w.live :: below ∧
    ∀ s ∈ below.head?, w.live.contains s = true

namespace Climbed

variable {w : Workbench}

/-- A widening of a `Climbed` selection goes on top of the whole history. -/
theorem expand_eq (h : Climbed w) :
    w.run .expand = w.withFrames w.host.wider w.session.expansion.frames := by
  obtain ⟨below, hframes, hbelow⟩ := h.chain
  rw [h.isOn.expand.2]
  cases below with
  | nil =>
    -- nothing is below, so a history is started: with the same selection
    have hnot : w.session.expansion.appliesTo w.live = false := by
      rw [Expansion.appliesTo, Expansion.below?, hframes]
      rfl
    rw [hnot, hframes]
    rfl
  | cons s below =>
    have happlies : w.session.expansion.appliesTo w.live = true := by
      rw [Expansion.appliesTo, Expansion.below?, hframes]
      exact hbelow s rfl
    rw [if_pos happlies]

/-- A widening keeps the chain `Climbed`, and a narrowing takes it back. -/
theorem run_expand (h : Climbed w) :
    Climbed (w.run .expand) ∧
      (w.run .expand).outcome .contract = .ok (.selected w.live) ∧
      (w.run .expand).run .contract = w := by
  obtain ⟨below, hframes, -⟩ := h.chain
  obtain ⟨hvalid, hcontains⟩ := w.host.wider_spec
  rw [h.expand_eq]
  have hlive : (w.withFrames w.host.wider w.session.expansion.frames).live = w.host.wider :=
    Host.currentSelection_select hvalid
  have hon : (w.withFrames w.host.wider w.session.expansion.frames).IsOn := h.isOn
  have htop : (w.withFrames w.host.wider w.session.expansion.frames).session.expansion.frames =
      w.host.wider :: w.live :: below := by
    rw [← hframes]
    rfl
  obtain ⟨hout, hback⟩ := hon.contract htop (by rw [hlive]; exact hcontains)
  refine ⟨⟨hon, ?_, w.live :: below, ?_, ?_⟩, hout, ?_⟩
  · rw [hlive]
    rfl
  · rw [htop, hlive]
  · rintro s ⟨⟩
    rw [hlive]
    exact hcontains
  · rw [hback]
    -- the selection is set and shown as it was, and the history is the one there was
    show { w with session := { w.session with expansion := ⟨w.live :: below⟩ },
                  host := w.host.select w.live } = w
    rw [h.shown, ← hframes]

theorem repeated (h : Climbed w) (n : Nat) : Climbed (w.repeated .expand n) := by
  induction n with
  | zero => exact h
  | succ n ih => exact ih.run_expand.1

/-- By `repeated`, narrowings take as many widenings back, and leave the others. -/
theorem contract_repeated (h : Climbed w) {n k : Nat} (hk : k ≤ n) :
    (w.repeated .expand n).repeated .contract k = w.repeated .expand (n - k) := by
  induction k with
  | zero => rfl
  | succ k ih =>
    have hsub : n - k = n - (k + 1) + 1 := by omega
    rw [Workbench.repeated, ih (by omega), hsub]
    exact ((h.repeated (n - (k + 1))).run_expand).2.2

end Climbed

/-- With an empty history, widening goes on as if the selection had been moved into the document
and widened to where it is. -/
theorem IsOn.expand_of_empty {w : Workbench} (h : w.IsOn) (hempty : w.session.expansion = .empty) :
    Climbed (w.withFrames w.live []) ∧ (w.withFrames w.live []).live = w.live ∧
      w.run .expand = (w.withFrames w.live []).run .expand := by
  have hlive : (w.withFrames w.live []).live = w.live :=
    Host.currentSelection_select w.host.valid_currentSelection
  have hclimbed : Climbed (w.withFrames w.live []) := by
    refine ⟨h, ?_, [], ?_, ?_⟩
    · rw [hlive]
      rfl
    · rw [hlive]
      rfl
    · rintro s ⟨⟩
  refine ⟨hclimbed, hlive, ?_⟩
  have hwider : (w.withFrames w.live []).host.wider = w.host.wider := by
    show Selection.ofDestination (w.host.document.expansion (w.withFrames w.live []).live.start
      (w.withFrames w.live []).live.stop) = _
    rw [hlive]
    rfl
  have hnot : w.session.expansion.appliesTo w.live = false := by
    rw [hempty]
    rfl
  rw [h.expand.2, hclimbed.expand_eq, hnot, hwider]
  rfl

section FromEmpty

variable {w : Workbench} (h : w.IsOn) (hempty : w.session.expansion = .empty)
include h hempty

/-- From the first widening on, a run from an empty history is one from a `Climbed` selection. -/
theorem repeated_expand_succ (k : Nat) :
    w.repeated .expand (k + 1) = (w.withFrames w.live []).repeated .expand (k + 1) := by
  rw [repeated_succ, repeated_succ, (h.expand_of_empty hempty).2.2]

theorem live_repeated_expand (k : Nat) :
    (w.repeated .expand k).live = ((w.withFrames w.live []).repeated .expand k).live := by
  cases k with
  | zero => exact (h.expand_of_empty hempty).2.1.symm
  | succ k => rw [repeated_expand_succ h hempty]

theorem isOn_repeated_expand (k : Nat) : (w.repeated .expand k).IsOn := by
  cases k with
  | zero => exact h
  | succ k =>
    rw [repeated_expand_succ h hempty]
    exact ((h.expand_of_empty hempty).1.repeated (k + 1)).isOn

/-- A narrowing selects what was seen before the widening that it takes back. -/
theorem contract_step {n k : Nat} (hk : k < n) :
    ((w.repeated .expand n).repeated .contract k).outcome .contract =
        .ok (.selected (w.repeated .expand (n - k - 1)).live) ∧
      ((w.repeated .expand n).repeated .contract (k + 1)).host.buffer.selection =
        (w.repeated .expand (n - k - 1)).live := by
  obtain ⟨n, rfl⟩ : ∃ m, n = m + 1 := ⟨n - 1, by omega⟩
  have hstart := (h.expand_of_empty hempty).1
  have hclimbed := hstart.repeated (n + 1 - k - 1)
  have hbefore : (w.repeated .expand (n + 1)).repeated .contract k =
      ((w.withFrames w.live []).repeated .expand (n + 1 - k - 1)).run .expand := by
    have hsub : n + 1 - k = n + 1 - k - 1 + 1 := by omega
    rw [repeated_expand_succ h hempty, hstart.contract_repeated (by omega), hsub]
    rfl
  obtain ⟨-, hout, hback⟩ := hclimbed.run_expand
  rw [live_repeated_expand h hempty]
  constructor
  · rw [hbefore]
    exact hout
  · rw [repeated, hbefore, hback]
    exact (congrArg (fun host => host.buffer.selection) hclimbed.shown).symm

/-- Once all widenings are taken back the history has nothing below its top. -/
theorem contract_past_start (n : Nat) :
    ((w.repeated .expand n).repeated .contract n).outcome .contract = .ok .unchanged ∧
      ((w.repeated .expand n).repeated .contract n).run .contract =
        (w.repeated .expand n).repeated .contract n := by
  cases n with
  | zero =>
    refine h.contract_end ?_
    rw [hempty]
    exact Nat.zero_le 1
  | succ n =>
    have hstart := (h.expand_of_empty hempty).1
    rw [repeated_expand_succ h hempty, hstart.contract_repeated (Nat.le_refl _), Nat.sub_self]
    exact hstart.isOn.contract_end (Nat.le_refl 1)

end FromEmpty

/-- **Narrowing takes widening back.**  From an empty history, `n` widenings and then `n` narrowings
all select something.  Each narrowing restores the selection that was seen before the widening it
takes back; the last one restores the selection at the start, moved into the document.  One more
narrowing changes nothing at all. -/
theorem contract_undoes_expand {w : Workbench} (hon : w.session.enabled = true)
    (hlanguage : w.session.supports w.host.buffer.language = true)
    (hempty : w.session.expansion = .empty) (n : Nat) :
    let up := fun k => w.repeated .expand k
    let down := fun k => (up n).repeated .contract k
    (∀ k < n, (up k).outcome .expand = .ok (.selected (up (k + 1)).host.buffer.selection)) ∧
      (∀ k < n, (down k).outcome .contract = .ok (.selected (up (n - k - 1)).live) ∧
        (down (k + 1)).host.buffer.selection = (up (n - k - 1)).live) ∧
      (down n).outcome .contract = .ok .unchanged ∧ (down n).run .contract = down n := by
  intro up down
  have hison : w.IsOn := ⟨hon, hlanguage⟩
  refine ⟨?_, ?_, ?_⟩
  · intro k _
    have hup := isOn_repeated_expand hison hempty k
    show _ = Except.ok (Outcome.selected ((up k).run .expand).host.buffer.selection)
    rw [hup.expand.1, hup.expand.2]
    rfl
  · intro k hk
    exact contract_step hison hempty hk
  · exact contract_past_start hison hempty n

/-- A caret past the end of a text in which nothing is closed is widened six times, the last two in
vain. -/
theorem contract_undoes_expand_past_end :
    let host : Host := .ofBuffer
      { Buffer.ofText "lisp" ['(', 'a', ' ', '[', 'b'] with selection := .caret 40 }
    let w : Workbench := ⟨{}, host, {}⟩
    let up := fun k => w.repeated .expand k
    let down := fun k => (up 6).repeated .contract k
    w.session.enabled = true ∧ w.session.supports w.host.buffer.language = true ∧
      w.session.expansion = .empty ∧
      (List.range 7).map (fun k => (up k).live) =
        [⟨5, 5, 5⟩, ⟨4, 5, 5⟩, ⟨3, 5, 5⟩, ⟨1, 5, 5⟩, ⟨0, 5, 5⟩, ⟨0, 5, 5⟩, ⟨0, 5, 5⟩] ∧
      (∀ k < 6, (up k).outcome .expand = .ok (.selected (up (k + 1)).host.buffer.selection)) ∧
      (∀ k < 6, (down k).outcome .contract = .ok (.selected (up (6 - k - 1)).live) ∧
        (down (k + 1)).host.buffer.selection = (up (6 - k - 1)).live) ∧
      (down 6).outcome .contract = .ok .unchanged ∧ (down 6).run .contract = down 6 := by
  intro host w up down
  have hlanguage : w.session.supports w.host.buffer.language = true := by decide +kernel
  exact ⟨rfl, hlanguage, rfl, by decide +kernel,
    contract_undoes_expand (w := w) rfl hlanguage rfl 6⟩

end Workbench

end SexpEdit
