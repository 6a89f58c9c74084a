/-
What operations keep.

An operation does two things to the selection of a host: a transaction carries it along, or it is
set somewhere in the text.  So a property of hosts that every transaction keeps, and that holds as
soon as the selection is in the text, is kept by every operation.  That the selection is in the text
is one; that it reaches no further past the end of the text than it did is another.

The selections that widening remembers were in the text when they were made, but the text may be
shorter now.  A narrowing only goes back to one that lies in the selection as it is, and so in the
text.

* `Host.applyAll_splices` — commands that a host made are splices of its text;
* `Host.Steady` — what transactions keep, and selections in the text have;
* `Host.Steady.perform` — the caret of an edit is placed in the text that its changes made;
* `Session.run_steady` — every operation keeps it, on every host;
* `Host.steady_inText`, `Host.steady_within` — the two properties.
-/
import SexpEdit.Proofs.Carrying
import SexpEdit.Proofs.SafeRun

namespace SexpEdit

/-! ### What a host made -/

theorem Command.exists_splice?_of_check {cs : List Char} {c : Command}
    (h : Op.check cs.length 0 [c.op] = .ok ()) : ∃ out, c.splice? cs = some out := by
  obtain ⟨-, hstop, -, -⟩ := Op.check_cons h
  cases c with
  | insert s new => exact ⟨_, if_pos hstop⟩
  | delete s n => exact ⟨_, if_pos hstop⟩

/-- A command that a buffer accepted is a `splice?` of its text. -/
theorem Buffer.splice?_of_edit {b b' : Buffer} {c : Command}
    (h : b.edit .join [c.op] = (.ok true, b')) : c.splice? b.text = some b'.text := by
  have harrange : Op.arrange [c.op] = [c.op] := rfl
  unfold edit at h
  split at h
  · cases h
  · simp only [UndoStops.join, stopGroup, Bool.false_eq_true, if_false, harrange] at h
    split at h
    · cases h
    · next hcheck =>
      obtain ⟨out, hout⟩ := Command.exists_splice?_of_check hcheck
      obtain ⟨-, happly, hnoop⟩ := Command.check_apply_of_splice? hout
      obtain rfl := (Prod.mk.inj h).2
      rw [hout]
      split
      · next hidle => rw [hnoop (by simpa using hidle)]
      · rw [← happly, text_commit hcheck]

namespace Host

theorem splice?_of_edit {h h' : Host} {c : Command} (hedit : h.edit .join [c.op] = (.ok true, h')) :
    c.splice? h.text = some h'.text := by
  simp only [edit] at hedit
  split at hedit
  · cases hedit
  · cases hedit
  · obtain ⟨hresult, rfl⟩ := Prod.mk.inj hedit
    exact Buffer.splice?_of_edit (Prod.ext hresult rfl)

/-- Commands that a host made by `applyAll` are splices of its text. -/
theorem applyAll_splices {cs : List Command} : ∀ {h h' : Host},
    h.applyAll cs = (.ok true, h') → Command.spliceAll? h.text cs = some h'.text := by
  induction cs with
  | nil =>
    intro h h' hrun
    obtain rfl := (Prod.mk.inj hrun).2
    rfl
  | cons c cs ih =>
    intro h h' hrun
    rw [applyAll] at hrun
    split at hrun
    · next mid hedit =>
      rw [Command.spliceAll?_cons, splice?_of_edit hedit]
      exact ih hrun
    · next hne => exact absurd hrun (hne h')

/-! ### The steps of an operation -/

/-- A property of hosts that every transaction keeps, and that holds when the selection is in the
text. -/
structure Steady (I : Host → Prop) : Prop where
  edit : ∀ {h : Host} (stops : UndoStops) (ops : List Op), I h → I (h.edit stops ops).2
  select : ∀ {h : Host} {s : Selection}, s.Valid h.length → I (h.select s)

namespace Steady

variable {I : Host → Prop} (hI : Steady I) {h : Host}
include hI

theorem applyAll (hin : I h) (cs : List Command) : I (h.applyAll cs).2 := by
  induction cs generalizing h with
  | nil => exact hin
  | cons c cs ih =>
    have hedit := hI.edit .join [c.op] hin
    rw [Host.applyAll]
    split
    · next heq =>
      rw [heq] at hedit
      exact ih hedit
    · exact hedit

/-- However a step of an operation ended, `conclude` closes its undo group by a transaction. -/
theorem conclude (hin : I h) (result : Except Failure Bool) : I (conclude result h).2 := by
  rw [conclude_host]
  exact hI.edit _ _ hin

theorem applyChanges (hin : I h) (changes : List Change) : I (h.applyChanges changes).2 := by
  unfold Host.applyChanges
  split
  · exact hin
  · exact hI.applyAll hin _

theorem settleLines (hin : I h) (cs : List Command) (width : Nat) :
    I (h.settleLines cs width).2 := by
  unfold Host.settleLines
  split
  · exact hin
  · exact hI.applyChanges hin _

theorem indent (hin : I h) (width : Nat) : I (h.indent width).2 :=
  hI.conclude (hI.applyChanges hin _) _

theorem cut (hin : I h) (c : Clipboard) (motion : Document → Nat → Destination) :
    I (h.cut c motion).2.1 := by
  have hspan : I (c.cutSpan h (h.reach motion).1 (h.reach motion).2).2.1 := by
    have happly := hI.applyAll hin [.deleteSpan (h.reach motion).1 (h.reach motion).2]
    unfold Clipboard.cutSpan
    split
    · exact hin
    · split
      · next heq =>
        rw [heq] at happly
        exact happly
      · next heq =>
        rw [heq] at happly
        exact happly
  exact hI.conclude hspan _

theorem selectPoint {offset : Nat} (ho : offset ≤ h.length) :
    I (h.selectDestination (.point offset)).2 :=
  hI.select ⟨Nat.le_refl _, ho, .inl rfl⟩

theorem navigate (h : Host) (m : Motion) :
    I (h.navigate fun d offset => m.target d offset).2 := by
  have hcursor : h.currentSelection.cursor ≤ h.document.length := h.valid_currentSelection.ends_le.2
  obtain ⟨ha, hb⟩ := Document.ends_target_le m hcursor
  simp only [Host.navigate]
  generalize m.target h.document h.currentSelection.cursor = target at ha hb
  cases target with
  | point offset => exact hI.selectPoint hb
  | span a b => exact hI.select (Selection.valid_between ha hb)

/-- The caret of an edit that `Fits` is placed in the text that its changes made. Where the host did
not make them all, it carried the selection along. -/
theorem perform (hin : I h) {e : Edit} (hfits : e.Fits h.length) (skipsIndent : Bool)
    (width : Nat) : I (h.perform e skipsIndent width).2 := by
  unfold Host.perform
  split
  · exact hin
  · next cs hcommands =>
    have happly := hI.applyAll hin cs
    split
    · next made hmade =>
      have hlength : made.length = Change.resized h.length e.changes :=
        Makes.length_eq ⟨cs, hcommands, applyAll_splices hmade⟩
      have hplaced : I (made.selectDestination (.point e.caret)).2 :=
        hI.selectPoint (hlength ▸ hfits.caret)
      cases skipsIndent with
      | true => exact hI.conclude hplaced _
      | false => exact hI.conclude (hI.settleLines hplaced cs width) _
    · next result stopped hne hstopped =>
      rw [hstopped] at happly
      have hfailed : result ≠ .ok true := by
        rintro rfl
        exact hne rfl
      rw [closeOnFailure_of_ne hfailed]
      exact hI.edit _ _ happly

theorem runEdit (hin : I h) (e : StructuralEdit) (width : Nat) :
    I (h.runEdit e.at? e.skipsIndent width).2 := by
  simp only [Host.runEdit]
  split
  · exact hin
  · next r hat =>
    have hfits : r.Fits h.length := fits_at? hat
    split
    · next hnone =>
      have hcaret := hfits.caret
      rw [List.isEmpty_iff.mp hnone] at hcaret
      exact hI.selectPoint hcaret
    · exact hI.perform hin hfits _ _

end Steady

end Host

/-! ### Operations -/

/-- Every selection in the history of a widening was in some text, which may have been longer. -/
def Expansion.Recorded (x : Expansion) : Prop :=
  ∀ s ∈ x.frames, ∃ length, s.Valid length

namespace Expansion

variable {x : Expansion} {h : Host} {I : Host → Prop}

theorem Recorded.expand (hx : x.Recorded) (hI : Host.Steady I) {d : Destination}
    (hd : (Selection.ofDestination d).Valid h.length) :
    I (x.expand h d).2.2 ∧ (x.expand h d).2.1.Recorded := by
  refine ⟨hI.select hd, fun s hs => ?_⟩
  rcases List.mem_cons.mp hs with rfl | hs
  · exact ⟨_, hd⟩
  · by_cases happlies : x.appliesTo h.currentSelection
    · rw [if_pos happlies] at hs
      exact hx s hs
    · rw [if_neg happlies] at hs
      obtain rfl := List.mem_singleton.mp hs
      exact ⟨_, h.valid_currentSelection⟩

/-- A `contract` goes back to a selection in the one that is live, and so in the text, however long
the text was when it was recorded. -/
theorem Recorded.contract (hx : x.Recorded) (hI : Host.Steady I) (hin : I h) :
    I (x.contract h).2.2 ∧ (x.contract h).2.1.Recorded := by
  unfold Expansion.contract
  split
  · next top s frames hframes =>
    have hmem : ∀ t ∈ s :: frames, t ∈ x.frames := by
      intro t ht
      rw [hframes]
      exact List.mem_cons_of_mem _ ht
    split
    · next hcontains =>
      rw [Selection.contains, Bool.and_eq_true, decide_eq_true_eq, decide_eq_true_eq] at hcontains
      obtain ⟨_, hle, -, hcursor⟩ := hx s (hmem s List.mem_cons_self)
      have hstop : s.stop ≤ h.length := hcontains.2.trans h.valid_currentSelection.stop_le
      exact ⟨hI.select ⟨hle, hstop, hcursor⟩, fun t ht => hx t (hmem t ht)⟩
    · exact ⟨hin, hx⟩
  · exact ⟨hin, hx⟩

end Expansion

/-- **Every operation keeps what is `Steady`**, on every host, and remembers only selections that
were in the text. -/
theorem Session.run_steady {I : Host → Prop} (hI : Host.Steady I) (s : Session)
    (hs : s.expansion.Recorded) (op : Operation) {h : Host} (hin : I h) (c : Clipboard) :
    I (s.run op h c).2.2.1 ∧ (s.run op h c).2.1.expansion.Recorded := by
  unfold run
  split
  · exact ⟨hin, hs⟩
  · cases op with
    | navigate m => exact ⟨hI.navigate h m, hs⟩
    | yank m =>
      dsimp only
      split <;> exact ⟨hin, hs⟩
    | cut m =>
      have hcut := hI.cut hin c fun d offset => m.target d offset
      exact ⟨hcut, hs⟩
    | expand =>
      have hwider : h.wider.Valid h.length := h.wider_spec.1
      exact hs.expand hI hwider
    | contract =>
      show I (s.expansion.contract h).2.2 ∧ (s.expansion.contract h).2.1.Recorded
      exact hs.contract hI hin
    | edit e =>
      show I (h.runEdit e.at? e.skipsIndent s.indentWidth).2 ∧ s.expansion.Recorded
      exact ⟨hI.runEdit hin e _, hs⟩
    | indent =>
      show I (h.indent s.indentWidth).2 ∧ s.expansion.Recorded
      exact ⟨hI.indent hin _, hs⟩

/-! ### Where the selection is -/

namespace Host

/-- The selection lies in the text. -/
def InText (h : Host) : Prop :=
  h.buffer.InText

/-- The anchor and the cursor are at most `n` characters past the end of the text. -/
def Within (n : Nat) (h : Host) : Prop :=
  h.buffer.selection.anchor ≤ h.length + n ∧ h.buffer.selection.cursor ≤ h.length + n

theorem steady_inText : Steady InText where
  edit {h} stops ops hin := by
    rcases h.edit_cases stops ops with heq | heq
    · rw [heq]
      exact hin
    · rw [heq]
      exact Buffer.InText.edit hin stops ops
  select hs := hs

/-- A selection past the end of the text moves with the end, so it stays `Within` as much of it. -/
theorem steady_within (n : Nat) : Steady (Within n) where
  edit {h} stops ops hin := by
    rcases h.edit_cases stops ops with heq | heq
    · rw [heq]
      exact hin
    · rw [heq]
      exact Buffer.ends_edit_le hin stops ops
  select {h s} hs := by
    obtain ⟨ha, hc⟩ := hs.ends_le
    exact ⟨Nat.le_add_right_of_le ha, Nat.le_add_right_of_le hc⟩

end Host

end SexpEdit
