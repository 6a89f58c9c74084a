/-
Operations never fail.

An operation that runs on a buffer that takes every transaction in its text, with a clipboard that
takes every write, succeeds.  It looks at the text as the one before it left it, so its changes lie
in that text, and so do the changes that indent the lines it touched, which are found again in the
text after the edit.  Both the buffer and the clipboard are as before then, so the next operation
succeeds too.

Offsets, widths and counts are natural numbers of any size here.

* `Host.perform_makes` — what an edit and the indentation after it make of the text;
* `Host.runEdit_ok`, `Host.cut_ok`, `Host.indent_ok` — the steps that change the text succeed;
* `Session.run_ok` — every operation succeeds, and the next one can be run.
-/
import SexpEdit.Proofs.Fitting
import SexpEdit.Proofs.Reindentation
import SexpEdit.Session

namespace SexpEdit

/-- The changes that indent the lines that `commands` touched, in the text `cs` that they made. -/
def Command.settling (cs : List Char) (commands : List Command) (width : Nat) : List Change :=
  match Command.touched? commands with
  | none => []
  | some (start, stop) =>
    ((Document.ofText cs).indent start { otherEnd := some stop, indentWidth := width }).changes

namespace Host

variable {h : Host}

/-! ### Where an operation looks -/

/-- The `currentSelection` is in the text, its ends in order. -/
theorem currentSelection_bounds (h : Host) : h.currentSelection.start ≤ h.currentSelection.stop ∧
    h.currentSelection.stop ≤ h.document.length ∧
    h.currentSelection.cursor ≤ h.document.length := by
  have hlength : h.document.length = h.length := rfl
  simp only [currentSelection, Selection.clamp, Selection.between, hlength]
  omega

/-- The `reach` of a motion is in the text. -/
theorem reach_le (h : Host) (m : Motion) :
    (h.reach fun d offset => m.target d offset).1 ≤ h.text.length ∧
      (h.reach fun d offset => m.target d offset).2 ≤ h.text.length :=
  Document.ends_target_le m h.currentSelection_bounds.2.2

/-- The options of an edit at the selection: its other end, unless it is a caret, and the width. -/
def liveOptions (h : Host) (width : Nat) : Edit.Options :=
  { otherEnd :=
      if h.currentSelection.start = h.currentSelection.stop then none
      else some h.currentSelection.stop
    indentWidth := width }

/-- An edit that is found at the selection `Fits` the text. -/
theorem fits_at? {e : StructuralEdit} {width : Nat} {r : Edit}
    (hat : e.at? h.document h.currentSelection.start (h.liveOptions width) = some r) :
    r.Fits h.length := by
  obtain ⟨hle, hstop, -⟩ := h.currentSelection_bounds
  refine StructuralEdit.at?_fits (hle.trans hstop) (fun other hother => ?_) hat
  rw [liveOptions] at hother
  dsimp only at hother
  split at hother
  · cases hother
  · obtain rfl := Option.some.inj hother
    exact hstop

/-! ### Transactions -/

/-- Ending the undo group with `undoStop` succeeds and keeps the text. -/
theorem undoStop_ok (hopen : h.Open) :
    ∃ h', h.undoStop = (.ok true, h') ∧ h'.Open ∧ h'.text = h.text := by
  obtain ⟨hgate, hro⟩ := hopen
  have hbuffer : h.buffer.edit .checkpoint [.insert 0 []] =
      (.ok true, { h.buffer with groupOpen := false }) := by
    unfold Buffer.edit
    rw [if_neg (by rw [hro]; exact Bool.false_ne_true)]
    simp [UndoStops.checkpoint, Buffer.stopGroup, Op.arrange, Op.place, Op.check, Op.start,
      Op.stop, Op.isNoop]
  refine ⟨{ h with buffer := { h.buffer with groupOpen := false }, calls := h.calls + 1 }, ?_,
    ⟨hgate, hro⟩, rfl⟩
  simp only [undoStop, edit, hgate, hbuffer]

theorem conclude_ok (hopen : h.Open) :
    ∃ h', conclude (.ok true) h = (.ok true, h') ∧ h'.Open ∧ h'.text = h.text := by
  obtain ⟨h', hstop, hkept⟩ := undoStop_ok hopen
  refine ⟨h', ?_, hkept⟩
  rw [conclude, hstop]
  rfl

/-- Changes that can be made are made by `applyChanges`. -/
theorem applyChanges_ok (hopen : h.Open) {changes : List Change} {out : List Char}
    (hmakes : Makes h.text changes out) :
    ∃ h', h.applyChanges changes = (.ok true, h') ∧ h'.Open ∧ h'.text = out := by
  obtain ⟨commands, hcommands, hsplice⟩ := hmakes
  obtain ⟨h', hrun, hmade⟩ := applyAll_open hopen hsplice
  refine ⟨h', ?_, hmade⟩
  rw [applyChanges, hcommands]
  dsimp only
  rw [hrun]
  rfl

/-! ### The steps of an operation -/

/-- A `reindent` between two offsets succeeds, whatever the offsets. -/
theorem reindent_ok (hopen : h.Open) (start stop width : Nat) :
    ∃ h', h.reindent start stop width = (.ok true, h') ∧ h'.Open ∧
      Makes h.text
        (h.document.indent start { otherEnd := some stop, indentWidth := width }).changes
        h'.text := by
  obtain ⟨out, hmakes, -⟩ :=
    h.document.indent_makes start { otherEnd := some stop, indentWidth := width }
  obtain ⟨h', hrun, hopen', rfl⟩ := applyChanges_ok hopen hmakes
  exact ⟨h', hrun, hopen', hmakes⟩

theorem settleLines_ok (hopen : h.Open) (cs : List Command) (width : Nat) :
    ∃ h', h.settleLines cs width = (.ok true, h') ∧ h'.Open ∧
      Makes h.text (Command.settling h.text cs width) h'.text := by
  rw [settleLines, Command.settling]
  cases Command.touched? cs with
  | none => exact ⟨h, rfl, hopen, .nil _⟩
  | some range => exact reindent_ok hopen range.1 range.2 width

/-- Indenting the selected lines succeeds. -/
theorem indent_ok (hopen : h.Open) (width : Nat) :
    ∃ h', h.indent width = (.ok true, h') ∧ h'.Open ∧
      Makes h.text (h.document.indent h.currentSelection.start
        { otherEnd := some h.currentSelection.stop, indentWidth := width }).changes h'.text := by
  obtain ⟨made, hreindent, hmade, hmakes⟩ :=
    reindent_ok hopen h.currentSelection.start h.currentSelection.stop width
  obtain ⟨last, hlast, hopen', htext⟩ := conclude_ok hmade
  refine ⟨last, ?_, hopen', htext ▸ hmakes⟩
  simp only [indent, hreindent]
  exact hlast

/-- An edit is made in the text, and unless `skipsIndent` the lines it touched are indented in the
text that it makes. -/
theorem perform_makes (hopen : h.Open) {e : Edit} {commands : List Command} {mid : List Char}
    (hcommands : Change.commands e.changes = .ok commands)
    (hsplice : Command.spliceAll? h.text commands = some mid) (skipsIndent : Bool) (width : Nat) :
    ∃ h', h.perform e skipsIndent width = (.ok (.edited true), h') ∧ h'.Open ∧
      Makes mid (if skipsIndent then [] else Command.settling mid commands width) h'.text := by
  obtain ⟨made, hmade, hopen, rfl⟩ := applyAll_open hopen hsplice
  let placed := (made.selectDestination (.point e.caret)).2
  have hplaced : placed.Open := hopen
  cases skipsIndent with
  | true =>
    obtain ⟨last, hlast, hopen, htext⟩ := conclude_ok hplaced
    refine ⟨last, ?_, hopen, ?_⟩
    · simp only [perform, hcommands, hmade, if_true]
      rw [hlast]
      rfl
    · rw [htext]
      exact .nil _
  | false =>
    obtain ⟨settled, hsettled, hopen, hmakes⟩ := settleLines_ok hplaced commands width
    obtain ⟨last, hlast, hopen, htext⟩ := conclude_ok hopen
    refine ⟨last, ?_, hopen, ?_⟩
    · simp only [perform, hcommands, hmade, Bool.false_eq_true, if_false]
      rw [hsettled, hlast]
      rfl
    · rw [htext]
      exact hmakes

/-- An edit whose changes `Fits` is made, and the lines it touched are indented. -/
theorem perform_ok (hopen : h.Open) {e : Edit} (hfits : Change.Fits h.text.length e.changes)
    (skipsIndent : Bool) (width : Nat) :
    ∃ h', h.perform e skipsIndent width = (.ok (.edited true), h') ∧ h'.Open := by
  obtain ⟨mid, commands, hcommands, hsplice⟩ := hfits.exists_makes rfl
  obtain ⟨h', hperform, hopen', -⟩ := perform_makes hopen hcommands hsplice skipsIndent width
  exact ⟨h', hperform, hopen'⟩

/-- A structural edit succeeds, or does not apply: `runEdit` does not fail. -/
theorem runEdit_ok (hopen : h.Open) (e : StructuralEdit) (width : Nat) :
    ∃ outcome h', h.runEdit e.at? e.skipsIndent width = (.ok outcome, h') ∧ h'.Open := by
  rw [runEdit]
  dsimp only
  split
  · exact ⟨.unchanged, h, rfl, hopen⟩
  · next r hat =>
    split
    · exact ⟨_, _, rfl, hopen⟩
    · obtain ⟨h', hperform, hopen'⟩ :=
        perform_ok hopen (fits_at? hat).changes e.skipsIndent width
      exact ⟨.edited true, h', hperform, hopen'⟩

/-- A `copySpan` succeeds on a clipboard that is in order. -/
theorem copySpan_ok {c : Clipboard} (hc : c.fault = none) (h : Host) (a b : Nat) :
    ∃ c', c.copySpan h a b = .ok c' ∧ c'.fault = none := by
  refine ⟨{ c with contents := some (h.slice (min a b) (max a b)) }, ?_, hc⟩
  rw [Clipboard.copySpan, Clipboard.write, hc]

theorem yank_ok {c : Clipboard} (hc : c.fault = none)
    (motion : Document → Nat → Destination) :
    ∃ c', h.yank c motion = (.ok (), c') ∧ c'.fault = none := by
  obtain ⟨c', hcopy, hc'⟩ := copySpan_ok hc h (h.reach motion).1 (h.reach motion).2
  refine ⟨c', ?_, hc'⟩
  simp only [yank, hcopy]

/-- Cutting from the cursor to where a motion leads succeeds. -/
theorem cut_ok (hopen : h.Open) {c : Clipboard} (hc : c.fault = none) (m : Motion) :
    ∃ h' c' a b, (h.cut c fun d offset => m.target d offset) = (.ok true, h', c') ∧ h'.Open ∧
      c'.fault = none ∧ Command.spliceAll? h.text [.deleteSpan a b] = some h'.text := by
  obtain ⟨ha, hb⟩ := h.reach_le m
  generalize hreach : (h.reach fun d offset => m.target d offset) = range at ha hb
  obtain ⟨a, b⟩ := range
  obtain ⟨c', hcopy, hc'⟩ := copySpan_ok hc h a b
  have hsplice : Command.spliceAll? h.text [.deleteSpan a b] =
      some (h.text.take (min a b) ++ h.text.drop (min a b + (max a b - min a b))) := by
    rw [Command.spliceAll?_cons, Command.deleteSpan, Command.splice?, if_pos (by omega)]
    rfl
  obtain ⟨made, hmade, hopen, hout⟩ := applyAll_open hopen hsplice
  obtain ⟨last, hlast, hopen, htext⟩ := conclude_ok hopen
  refine ⟨last, c', a, b, ?_, hopen, hc', by rw [hsplice, htext, hout]⟩
  simp only [cut, hreach, Clipboard.cutSpan, hcopy, hmade, hlast]

end Host

/-! ### Sessions -/

/-- A `contract` selects, or does nothing. -/
theorem Expansion.host_contract (x : Expansion) (h : Host) :
    (x.contract h).2.2 = h ∨ ∃ s, (x.contract h).2.2 = h.select s := by
  unfold contract
  split
  · split
    · exact .inr ⟨_, rfl⟩
    · exact .inl rfl
  · exact .inl rfl

/-- Every operation succeeds on an `Open` host, and the next one can be run. -/
theorem Session.run_ok {h : Host} {c : Clipboard} (hopen : h.Open) (hc : c.fault = none)
    (s : Session) (op : Operation) :
    ∃ outcome s' h' c', s.run op h c = (.ok outcome, s', h', c') ∧ h'.Open ∧ c'.fault = none := by
  unfold Session.run
  by_cases hoff : !s.enabled || !s.supports h.buffer.language
  · rw [if_pos hoff]
    exact ⟨.skipped, s, h, c, rfl, hopen, hc⟩
  · rw [if_neg hoff]
    cases op with
    | navigate m => exact ⟨_, _, _, _, rfl, hopen, hc⟩
    | yank m =>
      obtain ⟨c', hyank, hc'⟩ := Host.yank_ok (h := h) hc fun d offset => m.target d offset
      simp only [hyank]
      exact ⟨_, _, _, _, rfl, hopen, hc'⟩
    | cut m =>
      obtain ⟨h', c', -, -, hcut, hopen', hc', -⟩ := Host.cut_ok hopen hc m
      simp only [hcut]
      exact ⟨_, _, _, _, rfl, hopen', hc'⟩
    | expand => exact ⟨_, _, _, _, rfl, hopen, hc⟩
    | contract =>
      have hcontract : (s.expansion.contract h).2.2.Open := by
        rcases s.expansion.host_contract h with heq | ⟨sel, heq⟩ <;> rw [heq] <;> exact hopen
      exact ⟨_, _, _, _, rfl, hcontract, hc⟩
    | edit e =>
      obtain ⟨outcome, h', hedit, hopen'⟩ := Host.runEdit_ok hopen e s.indentWidth
      simp only [hedit]
      exact ⟨_, _, _, _, rfl, hopen', hc⟩
    | indent =>
      obtain ⟨h', hindent, hopen', -⟩ := Host.indent_ok hopen s.indentWidth
      simp only [hindent]
      exact ⟨_, _, _, _, rfl, hopen', hc⟩

end SexpEdit
