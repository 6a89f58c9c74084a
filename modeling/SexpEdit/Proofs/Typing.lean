/-
Typing, deleting and moving.

What is typed or pasted takes the place of the selection.  The commands for it lie in the text, so a
writable buffer makes them all and the caret can be put behind the new text.  A move goes to an
offset that is counted in lines and columns, and columns are cut to their line.

* `App.replaceSelection_ok` — the text and the caret after something is typed or pasted;
* `App.deleteChar_inText` — a deletion leaves the selection in the text;
* `CursorMove.target_le` — every move stays in the text.
-/
import SexpEdit.Proofs.Carrying
import SexpEdit.Proofs.SafeRun
import SexpEdit.Proofs.Unsaved

namespace SexpEdit

/-! ### Commands as one undo step -/

namespace Host

theorem Open.passesCheckpoints {h : Host} (hopen : h.Open) : h.PassesCheckpoints := by
  intro g hgate
  rw [hopen.1] at hgate
  cases hgate

/-- An `Open` host makes commands that stay inside its text, as one undo step. -/
theorem applyGrouped_ok {h : Host} (hopen : h.Open) {cs : List Command} {out : List Char}
    (hs : Command.spliceAll? h.text cs = some out) :
    ∃ h', h.applyGrouped cs = (.ok true, h') ∧ h'.Open ∧ h'.text = out := by
  obtain ⟨made, hmade, hopen, rfl⟩ := applyAll_open hopen hs
  obtain ⟨last, hlast, hkept⟩ := undoStop_ok hopen
  refine ⟨last, ?_, hkept⟩
  simp only [applyGrouped, hmade, closeOnFailure, hlast]

end Host

namespace App

/-- Commands that stay inside the text of a writable buffer are made by `change`, and the caret is
placed. -/
theorem change_ok {a : App} (hro : a.buffer.readOnly = false) {cs : List Command} {out : List Char}
    (hs : Command.spliceAll? a.text cs = some out) (cursor : Nat) :
    ∃ buffer, a.change cs cursor = { app := { a with buffer } } ∧ buffer.readOnly = false ∧
      buffer.text = out ∧ buffer.selection = .caret cursor := by
  obtain ⟨h, hrun, hopen, htext⟩ :=
    Host.applyGrouped_ok (h := Host.ofBuffer a.buffer) ⟨rfl, hro⟩ hs
  refine ⟨{ h.buffer with selection := .caret cursor }, ?_, hopen.2, htext, rfl⟩
  rw [change, hrun]
  rfl

/-! ### Replacing the selection -/

/-- Taking out the selection `s`, if it is not empty, and putting `new` in its place, if it has
characters. -/
theorem spliceAll?_replacement {cs : List Char} {s : Selection} (hs : s.Valid cs.length)
    (new : List Char) :
    Command.spliceAll? cs
      ((if s.isEmpty then [] else [Command.deleteSpan s.start s.stop]) ++
        if new.isEmpty then [] else [Command.insert s.start new]) =
      some (cs.take s.start ++ (new ++ cs.drop s.stop)) := by
  obtain ⟨hle, hstop, -⟩ := hs
  have hdelete : Command.spliceAll? cs
      (if s.isEmpty then [] else [Command.deleteSpan s.start s.stop]) =
        some (cs.take s.start ++ cs.drop s.stop) := by
    split
    · next hempty =>
      rw [beq_iff_eq.mp hempty, List.take_append_drop]
      rfl
    · rw [Command.deleteSpan, Nat.min_eq_left hle, Nat.max_eq_right hle,
        Command.spliceAll?_cons, Command.splice?, if_pos (by omega), Nat.add_sub_of_le hle]
      rfl
  have hinsert : Command.spliceAll? (cs.take s.start ++ cs.drop s.stop)
      (if new.isEmpty then [] else [Command.insert s.start new]) =
        some (cs.take s.start ++ (new ++ cs.drop s.stop)) := by
    have hlength : (cs.take s.start).length = s.start := List.length_take_of_le (by omega)
    split
    · next hempty =>
      rw [List.isEmpty_iff.mp hempty]
      rfl
    · rw [Command.spliceAll?_cons, Command.splice?, if_pos (by simp [hlength]),
        List.take_left' hlength, List.drop_left' hlength]
      rfl
  rw [Command.spliceAll?, List.foldlM_append, ← Command.spliceAll?, hdelete]
  exact hinsert

/-- By `replaceSelection` what is typed takes the place of the selection, and the caret comes behind
it; where there is nothing to take out and nothing to put in, nothing happens. -/
theorem replaceSelection_ok {a : App} (hro : a.buffer.readOnly = false) (new : List Char) :
    ∃ buffer, a.replaceSelection new = { app := { a with buffer } } ∧ buffer.readOnly = false ∧
      buffer.text = a.text.take a.currentSelection.start ++
        (new ++ a.text.drop a.currentSelection.stop) ∧
      (buffer.selection = .caret (a.currentSelection.start + new.length) ∨
        buffer = a.buffer) := by
  have hsplice := spliceAll?_replacement (Selection.valid_clamp a.buffer.length a.buffer.selection)
    new
  unfold replaceSelection
  extract_lets s cs
  change Command.spliceAll? a.text cs = some _ at hsplice
  by_cases hnone : cs.isEmpty
  · rw [List.isEmpty_iff.mp hnone] at hsplice
    rw [if_pos hnone]
    exact ⟨a.buffer, rfl, hro, Option.some.inj hsplice, .inr rfl⟩
  · rw [if_neg hnone]
    obtain ⟨buffer, hchange, hro', htext, hsel⟩ := change_ok hro hsplice (s.start + new.length)
    exact ⟨buffer, hchange, hro', htext, .inl hsel⟩

/-! ### Staying in the text -/

theorem inText_of_caret {b : Buffer} {offset : Nat} (hsel : b.selection = .caret offset)
    (ho : offset ≤ b.length) : b.InText := by
  rw [Buffer.InText, hsel]
  exact ⟨Nat.le_refl _, ho, .inl rfl⟩

theorem replaceSelection_inText {a : App} (hro : a.buffer.readOnly = false)
    (hin : a.buffer.InText) (new : List Char) :
    ∃ buffer, a.replaceSelection new = { app := { a with buffer } } ∧ buffer.readOnly = false ∧
      buffer.InText := by
  obtain ⟨buffer, hreplace, hro', htext, hsel | rfl⟩ := replaceSelection_ok hro new
  · refine ⟨buffer, hreplace, hro', inText_of_caret hsel ?_⟩
    obtain ⟨hle, hstop, -⟩ := Selection.valid_clamp a.buffer.length a.buffer.selection
    have hstart : a.currentSelection.start ≤ a.text.length := hle.trans hstop
    rw [Buffer.length, htext, List.length_append, List.length_append,
      List.length_take_of_le hstart]
    omega
  · exact ⟨_, hreplace, hro', hin⟩

/-- Taking out one character before or after an offset in the text. -/
theorem deleteSpan_inText {a : App} (hro : a.buffer.readOnly = false) {offset : Nat}
    (ho : offset < a.buffer.length) :
    ∃ buffer, a.change [.deleteSpan offset (offset + 1)] offset = { app := { a with buffer } } ∧
      buffer.readOnly = false ∧ buffer.InText := by
  have hlt : offset + 1 ≤ a.text.length := ho
  have hsplice : Command.spliceAll? a.text [.deleteSpan offset (offset + 1)] =
      some (a.text.take offset ++ a.text.drop (offset + 1)) := by
    have hle : offset ≤ offset + 1 := Nat.le_succ offset
    rw [Command.deleteSpan, Nat.min_eq_left hle, Nat.max_eq_right hle, Nat.add_sub_cancel_left,
      Command.spliceAll?_cons, Command.splice?, if_pos hlt]
    rfl
  obtain ⟨buffer, hchange, hro', htext, hsel⟩ := change_ok hro hsplice offset
  refine ⟨buffer, hchange, hro', inText_of_caret hsel ?_⟩
  rw [Buffer.length, htext, List.length_append, List.length_take_of_le (by omega)]
  omega

theorem deleteChar_inText {a : App} (hro : a.buffer.readOnly = false) (hin : a.buffer.InText)
    (backward : Bool) :
    ∃ buffer, a.deleteChar backward = { app := { a with buffer } } ∧ buffer.readOnly = false ∧
      buffer.InText := by
  have hcursor : a.currentSelection.cursor ≤ a.buffer.length :=
    (Selection.valid_clamp a.buffer.length a.buffer.selection).ends_le.2
  simp only [deleteChar]
  split
  · exact replaceSelection_inText hro hin []
  · cases backward with
    | true =>
      rw [if_pos rfl]
      split
      · next hpos =>
        have hlt : a.currentSelection.cursor - 1 < a.buffer.length := by omega
        have hdelete := deleteSpan_inText hro hlt
        rwa [Nat.sub_add_cancel hpos] at hdelete
      · exact ⟨a.buffer, rfl, hro, hin⟩
    | false =>
      rw [if_neg Bool.false_ne_true]
      split
      · next hlt => exact deleteSpan_inText hro hlt
      · exact ⟨a.buffer, rfl, hro, hin⟩

end App

/-! ### Moving -/

/-- The `target` of every move stays in the text. -/
theorem CursorMove.target_le {cs : List Char} {s : Selection} (h : s.cursor ≤ cs.length)
    (m : CursorMove) : m.target cs s ≤ cs.length := by
  cases m with
  | left => exact (Nat.sub_le _ _).trans h
  | right => exact Nat.min_le_right _ _
  | up =>
    simp only [target]
    split
    · exact Nat.zero_le _
    · exact Text.offsetOf_le _ _ _
  | down => exact Text.offsetOf_le _ _ _
  | lineStart => exact Text.offsetOf_le _ _ _
  | lineEnd => exact Text.offsetOf_le _ _ _

end SexpEdit
