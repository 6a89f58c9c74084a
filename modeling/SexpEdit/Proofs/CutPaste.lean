/-
Pasting puts back what was cut.

A motion reaches from the cursor to where it leads, or over a whole form that the cursor is in or
at; so the cursor lies in the range that is cut, ends included, and a deletion carries it to the
start of the range.  That is where the text is put back.  Where the motion leads nowhere the range
is empty, and nothing is cut and nothing pasted.  A read-only buffer keeps its text all along.

* `Motion.around_ends` — the cursor lies in the range that a motion reaches over;
* `Host.cut_caret` — the text, the caret and the clipboard after a cut;
* `App.paste_restores_cut` — a cut and a paste give the text back.
-/
import SexpEdit.Proofs.Typing

namespace SexpEdit

/-- The range `ends` that a motion reaches over holds the offset that it starts from. -/
theorem Motion.around_ends (d : Document) (offset : Nat) (m : Motion) :
    min ((m.target d offset).ends offset).1 ((m.target d offset).ends offset).2 ≤ offset ∧
      offset ≤ max ((m.target d offset).ends offset).1 ((m.target d offset).ends offset).2 := by
  -- a point is paired with the offset itself
  have hpoint : ∀ n, min ((Destination.point n).ends offset).1 ((Destination.point n).ends offset).2
      ≤ offset ∧ offset ≤
        max ((Destination.point n).ends offset).1 ((Destination.point n).ends offset).2 :=
    fun n => ⟨Nat.min_le_left _ _, Nat.le_max_left _ _⟩
  cases m with
  | topLevel =>
    rw [target]
    split
    · next f hf =>
      have hin := List.find?_some hf
      rw [Bool.and_eq_true, decide_eq_true_eq, decide_eq_true_eq] at hin
      exact ⟨(Nat.min_le_left _ _).trans hin.1, hin.2.trans (Nat.le_max_right _ _)⟩
    · exact hpoint offset
  | forward =>
    rw [target]
    split <;> exact hpoint _
  | backward =>
    rw [target]
    split <;> exact hpoint _
  | down =>
    rw [target]
    split <;> exact hpoint _
  | up =>
    rw [target]
    split <;> exact hpoint _
  | out =>
    rw [target]
    split <;> exact hpoint _

/-! ### Cutting -/

/-- A deletion carries an offset in the deleted text to its start, by `carry`. -/
theorem Op.carry_delete {start stop offset : Nat} (hstart : start ≤ offset)
    (hstop : offset ≤ stop) : carry [delete start stop] offset = start := by
  simp only [carry, totalShift, shift]
  split
  · omega
  · split <;> omega

namespace Host

variable {h : Host}

/-- A `deleteSpan` that holds the caret: the caret comes to its start. -/
theorem deleteSpan_caret (hopen : h.Open) {a b cursor : Nat} (ha : a ≤ h.text.length)
    (hb : b ≤ h.text.length) (hsel : h.buffer.selection = .caret cursor)
    (hmin : min a b ≤ cursor) (hmax : cursor ≤ max a b) :
    ∃ h', h.applyAll [.deleteSpan a b] = (.ok true, h') ∧ h'.Open ∧
      h'.text = h.text.take (min a b) ++ h.text.drop (max a b) ∧
      h'.buffer.selection = .caret (min a b) := by
  have hspan : min a b + (max a b - min a b) = max a b := by omega
  have hsplice : (Command.deleteSpan a b).splice? h.text =
      some (h.text.take (min a b) ++ h.text.drop (max a b)) := by
    rw [Command.deleteSpan, Command.splice?, hspan, if_pos (by omega)]
  obtain ⟨h', hedit, hopen', htext⟩ := edit_of_splice? hopen hsplice
  refine ⟨h', by rw [applyAll, hedit]; rfl, hopen', htext, ?_⟩
  have hcases := h.edit_join_cases (Command.deleteSpan a b).op
  rw [hedit] at hcases
  rcases hcases with hsame | ⟨-, hcommit⟩
  · -- nothing was taken out, so the span is empty and the caret is all of it
    have hlength : h'.text.length = h.text.length := congrArg (fun b => b.text.length) hsame
    rw [htext, List.length_append, List.length_take, List.length_drop] at hlength
    have hcursor : cursor = min a b := by omega
    rw [← hcursor, ← hsel]
    exact congrArg Buffer.selection hsame
  · have hcarry : Op.carry [(Command.deleteSpan a b).op] cursor = min a b := by
      rw [Command.deleteSpan, Command.op, hspan]
      exact Op.carry_delete hmin hmax
    have hselection : h'.buffer.selection = .between
        (Op.carry [(Command.deleteSpan a b).op] h.buffer.selection.anchor)
        (Op.carry [(Command.deleteSpan a b).op] h.buffer.selection.cursor) :=
      congrArg Buffer.selection hcommit
    have hanchor : (Selection.caret cursor).anchor = cursor := if_pos rfl
    rw [hselection, hsel, hanchor]
    show Selection.between (Op.carry _ cursor) (Op.carry _ cursor) = _
    rw [hcarry, Selection.between, Nat.min_self, Nat.max_self]
    rfl

/-- What `Host.cut` cuts is on the clipboard, whether the host takes it out of its text or not. -/
theorem contents_cut {c : Clipboard} (hc : c.fault = none)
    (motion : Document → Nat → Destination) :
    (h.cut c motion).2.2.contents = some
      (h.slice (min (h.reach motion).1 (h.reach motion).2)
        (max (h.reach motion).1 (h.reach motion).2)) := by
  simp only [cut, Clipboard.cutSpan, Clipboard.copySpan, Clipboard.write, hc]
  split <;> rfl

/-- A cut takes the range that the motion reaches over out of the text, and the caret stays where
the range was. -/
theorem cut_caret (hopen : h.Open) {c : Clipboard} (hc : c.fault = none) {cursor : Nat}
    (hsel : h.buffer.selection = .caret cursor) (hcursor : cursor ≤ h.length) (m : Motion)
    {a b : Nat} (hreach : (m.target h.document cursor).ends cursor = (a, b)) :
    ∃ h' c', (h.cut c fun d offset => m.target d offset) = (.ok true, h', c') ∧ h'.Open ∧
      h'.text = h.text.take (min a b) ++ h.text.drop (max a b) ∧
      h'.buffer.selection = .caret (min a b) := by
  have hlive : h.currentSelection.cursor = cursor := by
    rw [currentSelection, hsel]
    exact Nat.min_eq_left hcursor
  obtain ⟨ha, hb⟩ := Document.ends_target_le (d := h.document) m hcursor
  obtain ⟨hmin, hmax⟩ := m.around_ends h.document cursor
  rw [hreach] at ha hb hmin hmax
  obtain ⟨made, hmade, hopen, htext, hcaret⟩ := deleteSpan_caret hopen ha hb hsel hmin hmax
  obtain ⟨c', hcopy, -⟩ := copySpan_ok hc h a b
  obtain ⟨last, hlast, hopen', hkept⟩ := conclude_ok hopen
  have hbuffer : last.buffer = { made.buffer with groupOpen := false } := by
    have hstop : last = made.undoStop.2 := by rw [← conclude_host (.ok true) made, hlast]
    rw [hstop]
    exact undoStop_buffer hopen.passesCheckpoints
  refine ⟨last, c', ?_, hopen', hkept.trans htext, ?_⟩
  · simp only [cut, reach, hlive, hreach, Clipboard.cutSpan, hcopy, hmade, hlast]
  · rw [hbuffer, ← hcaret]

end Host

/-! ### Cutting and pasting -/

namespace App

/-- With structural editing on, the action of cutting leaves the buffer and the clipboard as
`Host.cut` does. -/
theorem perform_cut {a : App} (hon : a.session.enabled = true)
    (hlang : a.session.supports a.buffer.language = true) (m : Motion) (fault : Option String) :
    (a.perform fault (.run (.cut m))).app.buffer =
        ((Host.ofBuffer a.buffer).cut a.clipboard fun d offset => m.target d offset).2.1.buffer ∧
      (a.perform fault (.run (.cut m))).app.clipboard =
        ((Host.ofBuffer a.buffer).cut a.clipboard fun d offset => m.target d offset).2.2 := by
  have hruns : ¬(!a.session.enabled || !a.session.supports a.buffer.language) = true := by
    simp [hon, hlang]
  rcases hcut : (Host.ofBuffer a.buffer).cut a.clipboard fun d offset => m.target d offset
    with ⟨result, h, c⟩
  have hrun : a.session.run (.cut m) (Host.ofBuffer a.buffer) a.clipboard =
      (Host.outcomeOf result, a.session, h, c) := by
    rw [Session.run]
    refine (if_neg hruns).trans ?_
    simp only [hcut]
  simp only [perform, reduceCtorEq, if_false, runOperation, hrun]
  split <;> exact ⟨rfl, rfl⟩

theorem replaceSelection_text_of_readOnly {a : App} (hro : a.buffer.readOnly = true)
    (new : List Char) : (a.replaceSelection new).app.text = a.text := by
  unfold replaceSelection
  extract_lets s cs
  by_cases hnone : cs.isEmpty
  · rw [if_pos hnone]
  · rw [if_neg hnone]
    obtain ⟨log, htrace⟩ := ((Host.ofBuffer a.buffer).applyGrouped_stepsTo cs).exists_trace
    have htext := htrace.text_of_readOnly hro
    unfold change
    split
    · next heq =>
      rw [heq] at htext
      exact htext
    · next heq =>
      rw [heq] at htext
      exact htext

/-- Pasting at a caret puts `new`, the text on the clipboard, in there. -/
theorem paste_text {a : App} {new : List Char} (hnew : a.clipboard.contents = some new)
    {cursor : Nat} (hsel : a.buffer.selection = .caret cursor) (hcursor : cursor ≤ a.buffer.length)
    (hro : a.buffer.readOnly = false) (fault : Option String) :
    (a.perform fault .paste).app.text = a.text.take cursor ++ (new ++ a.text.drop cursor) := by
  have hpaste : a.perform fault .paste = { a with quitArmed := false }.replaceSelection new := by
    simp only [perform, reduceCtorEq, if_false, hnew]
  have hlive : a.currentSelection = .caret cursor := by
    rw [currentSelection, hsel]
    exact Selection.Valid.clamp_eq ⟨Nat.le_refl _, hcursor, .inl rfl⟩
  obtain ⟨buffer, hreplace, -, htext, -⟩ :=
    replaceSelection_ok (a := { a with quitArmed := false }) hro new
  change buffer.text = a.text.take a.currentSelection.start ++
    (new ++ a.text.drop a.currentSelection.stop) at htext
  rw [hpaste, hreplace]
  rw [hlive] at htext
  exact htext

theorem paste_text_of_readOnly {a : App} (hro : a.buffer.readOnly = true) (fault : Option String) :
    (a.perform fault .paste).app.text = a.text := by
  simp only [perform, reduceCtorEq, if_false]
  split
  · exact replaceSelection_text_of_readOnly (a := { a with quitArmed := false }) hro _
  · rfl

/-- **Pasting puts back what was cut.**  With structural editing on, from a caret in the text and by
any motion: the text between the caret and where the motion leads is on the clipboard after a cut,
and out of the text unless the buffer is read-only; and a paste gives the text from before. -/
theorem paste_restores_cut {a : App} (hon : a.session.enabled = true)
    (hlang : a.session.supports a.buffer.language = true) (hclip : a.clipboard.fault = none)
    {cursor : Nat} (hsel : a.buffer.selection = .caret cursor) (hcursor : cursor ≤ a.buffer.length)
    (m : Motion) (fault fault' : Option String) :
    let range := (m.target (.ofText a.text) cursor).ends cursor
    let cut := (a.perform fault (.run (.cut m))).app
    cut.clipboard.contents =
        some (Text.slice a.text (min range.1 range.2) (max range.1 range.2)) ∧
      (a.buffer.readOnly = false →
        cut.text = a.text.take (min range.1 range.2) ++ a.text.drop (max range.1 range.2)) ∧
      (cut.perform fault' .paste).app.text = a.text := by
  intro range cut
  let h := Host.ofBuffer a.buffer
  obtain ⟨hbuffer, hclipboard⟩ := perform_cut hon hlang m fault
  change cut.buffer = (h.cut a.clipboard _).2.1.buffer at hbuffer
  change cut.clipboard = (h.cut a.clipboard _).2.2 at hclipboard
  have hreach : (h.reach fun d offset => m.target d offset) = range := by
    have hlive : h.currentSelection.cursor = cursor := by
      rw [Host.currentSelection, show h.buffer.selection = .caret cursor from hsel]
      exact Nat.min_eq_left hcursor
    rw [Host.reach, hlive]
    rfl
  have hcontents : cut.clipboard.contents =
      some (Text.slice a.text (min range.1 range.2) (max range.1 range.2)) := by
    rw [hclipboard, Host.contents_cut hclip, hreach, Host.slice_eq]
    rfl
  refine ⟨hcontents, ?_⟩
  cases hro : a.buffer.readOnly with
  | true =>
    obtain ⟨log, htrace⟩ :=
      (h.cut_stepsTo a.clipboard fun d offset => m.target d offset).exists_trace
    have hro' : cut.buffer.readOnly = true := by
      rw [hbuffer, htrace.readOnly]
      exact hro
    have htext : cut.text = a.text := by
      rw [text, hbuffer]
      exact htrace.text_of_readOnly hro
    exact ⟨fun hfalse => absurd hfalse.symm Bool.false_ne_true,
      (paste_text_of_readOnly hro' fault').trans htext⟩
  | false =>
    obtain ⟨h', c', hcut, hopen, htext, hcaret⟩ :=
      Host.cut_caret (h := h) ⟨rfl, hro⟩ hclip hsel hcursor m rfl
    rw [hcut] at hbuffer
    change h'.buffer.text = a.text.take (min range.1 range.2) ++
      a.text.drop (max range.1 range.2) at htext
    change h'.buffer.selection = .caret (min range.1 range.2) at hcaret
    rw [← hbuffer] at htext hcaret
    have hro' : cut.buffer.readOnly = false := by
      rw [hbuffer]
      exact hopen.2
    have hmin : min range.1 range.2 ≤ a.text.length :=
      ((m.around_ends (.ofText a.text) cursor).1).trans hcursor
    have hlength : (a.text.take (min range.1 range.2)).length = min range.1 range.2 :=
      List.length_take_of_le hmin
    have hinside : min range.1 range.2 ≤ cut.buffer.length := by
      rw [Buffer.length, htext, List.length_append, hlength]
      omega
    refine ⟨fun _ => htext, ?_⟩
    rw [paste_text hcontents hcaret hinside hro', text, htext, List.take_left' hlength,
      List.drop_left' hlength]
    exact Text.take_append_slice (Nat.le_trans (Nat.min_le_left _ _) (Nat.le_max_left _ _))

/-- From inside the inner list, the top-level form is cut on both sides of the caret and put
back. -/
theorem paste_restores_cut_around :
    let buffer : Buffer := .ofText "clojure" "x (a (b) c) y".toList
    let a : App := { buffer := { buffer with selection := .caret 6 } }
    let cut := (a.perform none (.run (.cut .topLevel))).app
    (a.session.enabled = true ∧ a.session.supports a.buffer.language = true ∧
        a.clipboard.fault = none ∧ a.buffer.selection = .caret 6 ∧ 6 ≤ a.buffer.length) ∧
      cut.clipboard.contents = some "(a (b) c)".toList ∧ cut.text = "x  y".toList ∧
      (cut.perform none .paste).app.text = a.text := by
  intro buffer a cut
  have hlang : a.session.supports a.buffer.language = true := by decide +kernel
  have hcursor : 6 ≤ a.buffer.length := by decide +kernel
  obtain ⟨-, -, hpaste⟩ := paste_restores_cut (a := a) rfl hlang rfl rfl hcursor .topLevel none none
  exact ⟨⟨rfl, hlang, rfl, rfl, hcursor⟩, by decide +kernel, by decide +kernel, hpaste⟩

end App

end SexpEdit
