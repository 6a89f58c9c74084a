/-
The selection stays in the text.

The selection is set in many places: a transaction carries it along, a motion leads somewhere, an
edit says where its caret goes, a widening takes a structural range, a narrowing takes a selection
from its history, a step through the history of the text cuts it to the text, and plain typing and
moving count in characters or in lines and columns.  Each of them leaves it in the text as it is
then.  Operations do (`Session.run_steady`), and here the keys do.

* `App.Sound` — what every key keeps;
* `App.selection_stays_in_text` — so the selection stays in the text, in every run of keys.
-/
import SexpEdit.Proofs.Steadiness
import SexpEdit.Proofs.Typing

namespace SexpEdit

/-! ### Keys -/

theorem Buffer.undo_inText {b b' : Buffer} (h : b.undo = (true, b')) :
    b'.InText ∧ b'.readOnly = b.readOnly := by
  unfold undo at h
  split at h
  · cases h
  · obtain rfl := (Prod.mk.inj h).2
    exact ⟨b.inText_jump _ _ _, rfl⟩

theorem Buffer.redo_inText {b b' : Buffer} (h : b.redo = (true, b')) :
    b'.InText ∧ b'.readOnly = b.readOnly := by
  unfold redo at h
  split at h
  · cases h
  · obtain rfl := (Prod.mk.inj h).2
    exact ⟨b.inText_jump _ _ _, rfl⟩

namespace App

/-- The buffer can be written, its selection lies in the text, and so did the selections that
widening remembers when they were made. -/
structure Sound (a : App) : Prop where
  writable : a.buffer.readOnly = false
  inText : a.buffer.InText
  recorded : a.session.expansion.Recorded

namespace Sound

variable {a : App}

theorem say (h : a.Sound) (message : String) : (a.say message).Sound :=
  ⟨h.writable, h.inText, h.recorded⟩

theorem replaceSelection (h : a.Sound) (new : List Char) : (a.replaceSelection new).app.Sound := by
  obtain ⟨buffer, heq, hro, hin⟩ := replaceSelection_inText h.writable h.inText new
  rw [heq]
  exact ⟨hro, hin, h.recorded⟩

theorem deleteChar (h : a.Sound) (backward : Bool) : (a.deleteChar backward).app.Sound := by
  obtain ⟨buffer, heq, hro, hin⟩ := deleteChar_inText h.writable h.inText backward
  rw [heq]
  exact ⟨hro, hin, h.recorded⟩

theorem moveCursor (h : a.Sound) (m : CursorMove) (extend : Bool) :
    (a.moveCursor m extend).Sound := by
  obtain ⟨hanchor, hcursor⟩ := h.inText.ends_le
  have htarget : m.target a.buffer.text a.buffer.selection ≤ a.buffer.length :=
    CursorMove.target_le hcursor m
  refine ⟨h.writable, ?_, h.recorded⟩
  cases extend with
  | true => exact Selection.valid_between hanchor htarget
  | false => exact ⟨Nat.le_refl _, htarget, .inl rfl⟩

theorem runOperation (h : a.Sound) (op : Operation) : (a.runOperation op).app.Sound := by
  have hrun := a.session.run_steady Host.steady_inText h.recorded op (h := .ofBuffer a.buffer)
    h.inText a.clipboard
  obtain ⟨log, htrace⟩ := (a.session.run_stepsTo op (.ofBuffer a.buffer) a.clipboard).exists_trace
  have hro := htrace.readOnly.trans h.writable
  rcases heq : a.session.run op (.ofBuffer a.buffer) a.clipboard with ⟨result, session, host, c⟩
  rw [heq] at hrun hro
  have hsound : { a with session, buffer := host.buffer, clipboard := c }.Sound :=
    ⟨hro, hrun.1, hrun.2⟩
  simp only [App.runOperation, heq]
  split
  · exact hsound
  · split
    · exact hsound.deleteChar _
    · exact hsound.say _
  · exact hsound.say _
  · exact hsound.say _
  · exact hsound

theorem save (h : a.Sound) (fault : Option String) : (a.save fault).app.Sound := by
  unfold App.save
  split
  · exact h.say _
  · split
    · exact h
    · exact ⟨h.writable, h.inText, h.recorded⟩

theorem requestQuit (h : a.Sound) : a.requestQuit.Sound := by
  unfold App.requestQuit
  split <;> exact ⟨h.writable, h.inText, h.recorded⟩

/-- Whatever action is performed, the editor stays `Sound`. -/
theorem perform (h : a.Sound) (fault : Option String) (action : Action) :
    (a.perform fault action).app.Sound := by
  unfold App.perform
  extract_lets b
  have hb : b.Sound := by
    show (if action = .quit then a else { a with quitArmed := false }).Sound
    split
    · exact h
    · exact ⟨h.writable, h.inText, h.recorded⟩
  clear_value b
  cases action with
  | run op => exact hb.runOperation op
  | insert c => exact hb.replaceSelection _
  | newline => exact hb.replaceSelection _
  | move m extend => exact hb.moveCursor m extend
  | deleteBackward => exact hb.deleteChar true
  | deleteForward => exact hb.deleteChar false
  | undo =>
    dsimp only
    split
    · next buffer heq =>
      obtain ⟨hin, hro⟩ := Buffer.undo_inText heq
      exact ⟨hro.trans hb.writable, hin, hb.recorded⟩
    · exact hb.say _
  | redo =>
    dsimp only
    split
    · next buffer heq =>
      obtain ⟨hin, hro⟩ := Buffer.redo_inText heq
      exact ⟨hro.trans hb.writable, hin, hb.recorded⟩
    · exact hb.say _
  | paste =>
    dsimp only
    split
    · exact hb.replaceSelection _
    · exact hb.say _
  | save => exact hb.save fault
  | quit => exact hb.requestQuit
  | toggleStructural => exact ⟨hb.writable, hb.inText, hb.recorded⟩
  | openPrompt => exact ⟨hb.writable, hb.inText, hb.recorded⟩

theorem pressAtPrompt (h : a.Sound) (input : List Char) (k : Key) :
    (a.pressAtPrompt input k).app.Sound := by
  have hprompt : ∀ prompt, { a with prompt }.Sound := fun _ => ⟨h.writable, h.inText, h.recorded⟩
  cases k with
  | enter =>
    unfold App.pressAtPrompt
    dsimp only
    by_cases hempty : (Text.trim input).isEmpty = true
    · rw [if_pos hempty]
      exact hprompt none
    · rw [if_neg hempty]
      generalize Operation.ofWord? (String.ofList (Text.trim input)) = found
      cases found with
      | ok op => exact (hprompt none).runOperation op
      | error u => exact hprompt none
  | escape => exact hprompt none
  | backspace => exact hprompt _
  | char c => exact hprompt _
  | _ => exact h

theorem reported {s : Step} (h : s.app.Sound) : s.reported.app.Sound := by
  unfold Step.reported
  split
  · exact h.say _
  · exact h

theorem pressed (h : a.Sound) (e : Event) : (a.pressed e).Sound := by
  unfold App.pressed App.press
  split
  · exact (h.pressAtPrompt _ _).reported
  · split
    · have hquiet : { a with status := none }.Sound := ⟨h.writable, h.inText, h.recorded⟩
      exact (hquiet.perform _ _).reported
    · exact h

end Sound

/-- Something that happens to the editor: a key, or another program that sets the clipboard. -/
inductive Happening where
  | key (e : Event)
  | clipboard (c : Clipboard)

/-- The editor `a` after something happened. -/
def meet (a : App) : Happening → App
  | .key e => a.pressed e
  | .clipboard c => { a with clipboard := c }

/-- What happens leaves an editor `Sound`, and so does whatever happens in a row. -/
theorem Sound.foldl_meet {a : App} (h : a.Sound) (happenings : List Happening) :
    (happenings.foldl meet a).Sound := by
  induction happenings generalizing a with
  | nil => exact h
  | cons happening happenings ih =>
    refine ih ?_
    cases happening with
    | key e => exact h.pressed e
    | clipboard c => exact ⟨h.writable, h.inText, h.recorded⟩

/-- **The selection stays in the text.**  An editor whose selection lies in the text of a writable
buffer keeps it there, with the cursor at one of its ends, through every run of keys and with any
text on the clipboard to be pasted.  The history of the widening may hold selections that reach past
the end of the text.

On a read-only buffer it does not hold: what is typed is declined, but the caret moves on as if it
had been made. -/
theorem selection_stays_in_text {a : App} (hro : a.buffer.readOnly = false)
    (hsel : a.buffer.selection.Valid a.buffer.length)
    (hframes : ∀ s ∈ a.session.expansion.frames, ∃ length, s.Valid length)
    (happenings : List Happening) :
    (happenings.foldl meet a).buffer.selection.Valid (happenings.foldl meet a).buffer.length :=
  (Sound.foldl_meet ⟨hro, hsel, hframes⟩ happenings).inText

/-- The history holds selections that reach past the end of the text: a narrowing does not go back
to them, and the widening after it starts a new history.  Then all of the text gives way to what
another program copied, and that is undone. -/
theorem selection_stays_in_text_shortened :
    let buffer : Buffer := { Buffer.ofText "clojure" "(a b)".toList with selection := .between 1 4 }
    let expansion : Expansion := ⟨[.between 0 40, .between 1 30, .between 1 3]⟩
    let a : App := { buffer, session := { expansion } }
    let happenings : List Happening := [.key { chord := ⟨.char 'W', false, true, false⟩ },
      .key { chord := ⟨.char 'w', false, true, false⟩ }, .clipboard { contents := some ['x', 'y'] },
      .key { chord := ⟨.char 'v', true, false, false⟩ },
      .key { chord := ⟨.char 'z', true, false, false⟩ }]
    (a.buffer.readOnly = false ∧ a.buffer.selection.Valid a.buffer.length ∧
        ∀ s ∈ a.session.expansion.frames, ∃ length, s.Valid length) ∧
      ((happenings.take 2).foldl meet a).buffer.selection = .between 0 5 ∧
      ((happenings.take 4).foldl meet a).buffer.selection = .caret 2 ∧
      (happenings.foldl meet a).buffer.selection.Valid
        (happenings.foldl meet a).buffer.length := by
  intro buffer expansion a happenings
  have hsel : a.buffer.selection.Valid a.buffer.length :=
    Selection.valid_between (by decide) (by decide)
  have hframes : ∀ s ∈ a.session.expansion.frames, ∃ length, s.Valid length := by
    intro s hs
    refine ⟨40, ?_⟩
    simp only [a, expansion, List.mem_cons, List.not_mem_nil, or_false] at hs
    rcases hs with rfl | rfl | rfl <;> exact Selection.valid_between (by decide) (by decide)
  exact ⟨⟨rfl, hsel, hframes⟩, by decide +kernel, by decide +kernel,
    selection_stays_in_text rfl hsel hframes happenings⟩

/-- What is typed into a read-only buffer is not there, but the caret is behind it: the selection lies
in the text before the key, and not after it. -/
theorem selection_leaves_read_only_text :
    let a : App := { buffer := { Buffer.ofText "clojure" [] with readOnly := true } }
    let happenings : List Happening := [.key { chord := ⟨.char 'x', false, false, false⟩ }]
    a.buffer.selection.Valid a.buffer.length ∧
      (happenings.foldl meet a).buffer.selection = .caret 1 ∧
      (happenings.foldl meet a).buffer.length = 0 ∧
      ¬(happenings.foldl meet a).buffer.selection.Valid
        (happenings.foldl meet a).buffer.length := by
  intro a happenings
  have hcaret : (happenings.foldl meet a).buffer.selection = .caret 1 := by decide +kernel
  have hlength : (happenings.foldl meet a).buffer.length = 0 := by decide +kernel
  refine ⟨⟨Nat.le_refl _, Nat.le_refl _, .inl rfl⟩, hcaret, hlength, ?_⟩
  rw [hcaret, hlength]
  rintro ⟨-, hstop, -⟩
  exact absurd hstop (by decide)

end App

end SexpEdit
