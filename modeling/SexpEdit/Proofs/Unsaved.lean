/-
Unsaved work is not lost by quitting.

The editor tells by a version number whether its text is in the file.  The number grows with every
change of the text, whether it is made by a key, by an operation from the prompt or by a step
through history, and so the text can only be the saved one while the number is the saved one.
Quitting with another text takes two attempts in a row: everything else that a key can do disarms
the second one, and the prompt, which runs operations on its own, can only be opened by such a key.

* `Buffer.Advances` — a buffer whose text changes gets a greater version;
* `App.runOperation_works` — so it is for everything that an operation does;
* `App.written?_eq` — a key writes the text exactly if it saves;
* `App.pressed_idle`, `App.pressed_works`, `App.pressed_save`, `App.pressed_quit` — what a key can
  do to the editor;
* `App.quits_cases` — when a key makes the editor quit;
* `App.Tracked.pressed` — the saved version stands for the saved text, key after key;
* `App.quitting_keeps_unsaved_work` — the editor is quit with the saved text, or at the second of
  two attempts.
-/
import Mathlib.Data.List.Induction
import SexpEdit.App
import SexpEdit.Proofs.History
import SexpEdit.Proofs.UndoStep

namespace SexpEdit

/-! ### Versions -/

/-- The buffer `b'` comes from `b`, and has a greater version if its text is another one. -/
structure Buffer.Advances (b b' : Buffer) : Prop where
  version_le : b.version ≤ b'.version
  text_eq : b'.version = b.version → b'.text = b.text

namespace Buffer

theorem Advances.refl (b : Buffer) : Advances b b :=
  ⟨Nat.le_refl _, fun _ => rfl⟩

theorem Advances.trans {b b' b'' : Buffer} (h : Advances b b') (h' : Advances b' b'') :
    Advances b b'' := by
  have hle := h.version_le
  have hle' := h'.version_le
  constructor
  · omega
  · intro heq
    rw [h'.text_eq (by omega), h.text_eq (by omega)]

/-- A greater version may come with any text. -/
theorem Advances.of_succ {b b' : Buffer} (h : b'.version = b.version + 1) : Advances b b' := by
  constructor
  · omega
  · intro heq
    omega

theorem stopGroup_advances (b : Buffer) (stop : Bool) : Advances b (b.stopGroup stop) := by
  cases stop with
  | false => exact .refl b
  | true => exact ⟨Nat.le_refl _, fun _ => rfl⟩

theorem edit_advances (b : Buffer) (stops : UndoStops) (ops : List Op) :
    Advances b (b.edit stops ops).2 := by
  rcases b.edit_cases stops ops with ⟨stop, heq⟩ | ⟨-, before, after, heq⟩
  · rw [heq]
    exact b.stopGroup_advances stop
  · rw [heq]
    have hcommit : Advances (b.stopGroup before) ((b.stopGroup before).commit (Op.arrange ops)) :=
      .of_succ rfl
    exact ((b.stopGroup_advances before).trans hcommit).trans (stopGroup_advances _ after)

theorem undo_advances (b : Buffer) : Advances b b.undo.2 := by
  unfold undo
  split
  · exact .refl b
  · exact .of_succ rfl

theorem redo_advances (b : Buffer) : Advances b b.redo.2 := by
  unfold redo
  split
  · exact .refl b
  · exact .of_succ rfl

end Buffer

namespace Host

theorem edit_advances (h : Host) (stops : UndoStops) (ops : List Op) :
    h.buffer.Advances (h.edit stops ops).2.buffer := by
  rcases h.edit_cases stops ops with heq | heq
  · rw [heq]
    exact .refl _
  · rw [heq]
    exact h.buffer.edit_advances stops ops

theorem Trace.advances {h h' : Host} {log : List Transaction} (ht : Trace h log h') :
    h.buffer.Advances h'.buffer := by
  induction ht with
  | done h => exact .refl _
  | select s _ ih => exact ⟨ih.version_le, ih.text_eq⟩
  | edit stops ops _ ih => exact (edit_advances _ stops ops).trans ih

theorem StepsTo.advances {h h' : Host} (hs : StepsTo h h') : h.buffer.Advances h'.buffer := by
  rcases hs with ht | ⟨m, ⟨log, ht, -⟩, rfl⟩
  · exact ht.advances
  · exact ht.advances.trans (edit_advances m _ _)

/-- However `applyGrouped` ends, a checkpoint concludes it. -/
theorem applyGrouped_host (h : Host) (cs : List Command) :
    (h.applyGrouped cs).2 = (h.applyAll cs).2.undoStop.2 := by
  rcases happly : h.applyAll cs with ⟨result, h'⟩
  simp only [applyGrouped, happly]
  split
  · rfl
  · next hne => exact closeOnFailure_of_ne hne h'

theorem applyGrouped_stepsTo (h : Host) (cs : List Command) : StepsTo h (h.applyGrouped cs).2 :=
  .inr ⟨(h.applyAll cs).2, applyAll_joinsTo cs h, h.applyGrouped_host cs⟩

end Host

namespace App

/-! ### Keys -/

/-- The text in the editor. -/
def text (a : App) : List Char :=
  a.buffer.text

/-- A key, and why a write to the file would fail if the key led to one. -/
structure Event where
  chord : Chord
  fault : Option String := none

/-- The editor `a` after the key of `e`. -/
def pressed (a : App) (e : Event) : App :=
  (a.press e.fault e.chord).app

/-- The editor `a` after the keys of `events`. -/
def after (a : App) (events : List Event) : App :=
  events.foldl pressed a

/-- The action that the key `k` performs. At the prompt it is none: a key is typed there. -/
def action? (a : App) (k : Chord) : Option Action :=
  if a.prompt.isSome then none else a.keyMap.resolve? k

/-- Whether the key of `e` saves the text, and the write succeeds. -/
def saves (a : App) (e : Event) : Bool :=
  a.action? e.chord == some .save && a.path.isSome && e.fault.isNone

/-- The text that the key of `e` writes to the file. -/
def written? (a : App) (e : Event) : Option (List Char) :=
  (a.press e.fault e.chord).written

/-- The text last written to the file after some keys, when it was `saved` before them. -/
def savedText (a : App) (saved : List Char) : List Event → List Char
  | [] => saved
  | e :: events => (a.pressed e).savedText ((a.written? e).getD saved) events

/-- The last action that the keys performed was to quit, and the text has been the same since. -/
inductive QuitLast (start : App) : List Event → Prop
  | quit {events : List Event} {e : Event} :
      (start.after events).action? e.chord = some .quit →
      (start.after (events ++ [e])).text = (start.after events).text →
      QuitLast start (events ++ [e])
  | idle {events : List Event} {e : Event} : QuitLast start events →
      (start.after events).action? e.chord = none →
      (start.after (events ++ [e])).text = (start.after events).text →
      QuitLast start (events ++ [e])

theorem after_append (a : App) (events : List Event) (e : Event) :
    a.after (events ++ [e]) = (a.after events).pressed e := by
  rw [after, List.foldl_append]
  rfl

/-! ### What is written -/

theorem written_change (a : App) (cs : List Command) (cursor : Nat) :
    (a.change cs cursor).written = none := by
  unfold change
  split <;> rfl

theorem written_replaceSelection (a : App) (text : List Char) :
    (a.replaceSelection text).written = none := by
  unfold replaceSelection
  extract_lets s cs
  by_cases hcs : cs.isEmpty
  · rw [if_pos hcs]
  · rw [if_neg hcs]
    exact a.written_change cs _

theorem written_deleteChar (a : App) (backward : Bool) : (a.deleteChar backward).written = none := by
  simp only [deleteChar]
  split
  · exact a.written_replaceSelection []
  · split
    · split
      · exact a.written_change _ _
      · rfl
    · split
      · exact a.written_change _ _
      · rfl

theorem written_runOperation (a : App) (op : Operation) : (a.runOperation op).written = none := by
  simp only [runOperation]
  split
  · rfl
  · split
    · exact written_deleteChar _ _
    · rfl
  · rfl
  · rfl
  · rfl

theorem written_reported (s : Step) : s.reported.written = s.written := by
  unfold Step.reported
  split <;> rfl

theorem written_pressAtPrompt (a : App) (input : List Char) (k : Key) :
    (a.pressAtPrompt input k).written = none := by
  cases k with
  | enter =>
    unfold pressAtPrompt
    dsimp only
    by_cases hempty : (Text.trim input).isEmpty = true
    · rw [if_pos hempty]
    · rw [if_neg hempty]
      cases Operation.ofWord? (String.ofList (Text.trim input)) with
      | ok op => exact written_runOperation _ op
      | error u => rfl
  | _ => rfl

/-- Only saving writes: the text as it is, if there is a file and the write does not fail. -/
theorem written_perform (a : App) (fault : Option String) (action : Action) :
    (a.perform fault action).written =
      if action == .save && a.path.isSome && fault.isNone then some a.text else none := by
  unfold perform
  cases action with
  | run op => exact written_runOperation _ op
  | insert c => exact written_replaceSelection _ _
  | newline => exact written_replaceSelection _ _
  | move m extend => rfl
  | deleteBackward => exact written_deleteChar _ _
  | deleteForward => exact written_deleteChar _ _
  | undo =>
    dsimp only
    split <;> rfl
  | redo =>
    dsimp only
    split <;> rfl
  | paste =>
    dsimp only
    split
    · exact written_replaceSelection _ _
    · rfl
  | save =>
    rw [if_neg (show ¬Action.save = Action.quit from Action.noConfusion)]
    dsimp only
    unfold save
    rcases hpath : a.path with _ | path
    · rfl
    · cases fault <;> rfl
  | quit => rfl
  | toggleStructural => rfl
  | openPrompt => rfl

/-- A key writes exactly if it `saves`, and then it writes the text as it is. -/
theorem written?_eq (a : App) (e : Event) :
    a.written? e = if a.saves e then some a.text else none := by
  unfold written? press saves action?
  rcases hprompt : a.prompt with _ | input
  · rcases hresolve : a.keyMap.resolve? e.chord with _ | action
    · rfl
    · dsimp only
      rw [written_reported, written_perform]
      rfl
  · dsimp only
    rw [written_reported, written_pressAtPrompt]
    rfl

theorem savedText_append (events : List Event) (e : Event) : ∀ (a : App) (saved : List Char),
    a.savedText saved (events ++ [e]) =
      if (a.after events).saves e then (a.after events).text
      else a.savedText saved events := by
  induction events with
  | nil =>
    intro a saved
    show (a.written? e).getD saved = if a.saves e then a.text else saved
    rw [written?_eq]
    split <;> rfl
  | cons d events ih =>
    intro a saved
    exact ih (a.pressed d) _

/-! ### What an action works on -/

/-- The editor `a'` goes on from `a` with a buffer that advanced; what it knows of the file and of
quitting is as it was. -/
structure Works (a a' : App) : Prop where
  buffer : a.buffer.Advances a'.buffer
  savedVersion : a'.savedVersion = a.savedVersion
  quitArmed : a'.quitArmed = a.quitArmed
  quit : a'.quit = a.quit

theorem Works.refl (a : App) : Works a a :=
  ⟨.refl _, rfl, rfl, rfl⟩

theorem Works.trans {a a' a'' : App} (h : Works a a') (h' : Works a' a'') : Works a a'' :=
  ⟨h.buffer.trans h'.buffer, h'.savedVersion.trans h.savedVersion,
    h'.quitArmed.trans h.quitArmed, h'.quit.trans h.quit⟩

theorem Works.withBuffer (a : App) {b : Buffer} (h : a.buffer.Advances b) :
    Works a { a with buffer := b } :=
  ⟨h, rfl, rfl, rfl⟩

theorem Works.say (a : App) (message : String) : Works a (a.say message) :=
  ⟨.refl _, rfl, rfl, rfl⟩

theorem Works.select (a : App) (s : Selection) : Works a (a.select s) :=
  .withBuffer a ⟨Nat.le_refl _, fun _ => rfl⟩

theorem change_works (a : App) (cs : List Command) (cursor : Nat) :
    Works a (a.change cs cursor).app := by
  have hbuffer := ((Host.ofBuffer a.buffer).applyGrouped_stepsTo cs).advances
  unfold change
  split
  · next h heq =>
    rw [heq] at hbuffer
    exact (Works.withBuffer a hbuffer).trans (.select _ _)
  · next h heq =>
    rw [heq] at hbuffer
    exact .withBuffer a hbuffer

theorem replaceSelection_works (a : App) (text : List Char) :
    Works a (a.replaceSelection text).app := by
  unfold replaceSelection
  extract_lets s cs
  by_cases hcs : cs.isEmpty
  · rw [if_pos hcs]
    exact .refl a
  · rw [if_neg hcs]
    exact a.change_works cs _

theorem deleteChar_works (a : App) (backward : Bool) : Works a (a.deleteChar backward).app := by
  simp only [deleteChar]
  split
  · exact a.replaceSelection_works []
  · split
    · split
      · exact a.change_works _ _
      · exact .refl a
    · split
      · exact a.change_works _ _
      · exact .refl a

/-- An operation `Works` on the buffer, also where it falls back to plain deletion. -/
theorem runOperation_works (a : App) (op : Operation) : Works a (a.runOperation op).app := by
  have hbuffer := (a.session.run_stepsTo op (.ofBuffer a.buffer) a.clipboard).advances
  rcases hrun : a.session.run op (.ofBuffer a.buffer) a.clipboard with ⟨result, session, h, c⟩
  rw [hrun] at hbuffer
  have hworks : Works a { a with session, buffer := h.buffer, clipboard := c } :=
    ⟨hbuffer, rfl, rfl, rfl⟩
  simp only [runOperation, hrun]
  split
  · exact hworks
  · split
    · exact hworks.trans (deleteChar_works _ _)
    · exact hworks.trans (.say _ _)
  · exact hworks.trans (.say _ _)
  · exact hworks.trans (.say _ _)
  · exact hworks

theorem reported_works (s : Step) : Works s.app s.reported.app := by
  unfold Step.reported
  split
  · exact .say _ _
  · exact .refl _

/-- The prompt runs operations and does nothing else to the buffer: it `Works` on it. -/
theorem pressAtPrompt_works (a : App) (input : List Char) (k : Key) :
    Works a (a.pressAtPrompt input k).app := by
  have hprompt : ∀ prompt, Works a { a with prompt } := fun _ => ⟨.refl _, rfl, rfl, rfl⟩
  cases k with
  | enter =>
    unfold pressAtPrompt
    dsimp only
    by_cases hempty : (Text.trim input).isEmpty = true
    · rw [if_pos hempty]
      exact hprompt none
    · rw [if_neg hempty]
      generalize Operation.ofWord? (String.ofList (Text.trim input)) = found
      cases found with
      | ok op => exact (hprompt none).trans (runOperation_works _ op)
      | error u => exact hprompt none
  | escape => exact hprompt none
  | backspace => exact hprompt _
  | char c => exact hprompt _
  | _ => exact .refl a

/-- An action that is neither to save nor to quit `Works` on the buffer and disarms quitting. -/
theorem perform_works (a : App) (fault : Option String) {action : Action} (hsave : action ≠ .save)
    (hquit : action ≠ .quit) :
    Works { a with quitArmed := false } (a.perform fault action).app := by
  unfold perform
  rw [if_neg hquit]
  dsimp only
  cases action with
  | run op => exact runOperation_works _ op
  | insert c => exact replaceSelection_works _ _
  | newline => exact replaceSelection_works _ _
  | move m extend => exact .select _ _
  | deleteBackward => exact deleteChar_works _ _
  | deleteForward => exact deleteChar_works _ _
  | undo =>
    have hundo := a.buffer.undo_advances
    dsimp only
    split
    · next b heq =>
      rw [show a.buffer.undo = (true, b) from heq] at hundo
      exact .withBuffer _ hundo
    · exact .say _ _
  | redo =>
    have hredo := a.buffer.redo_advances
    dsimp only
    split
    · next b heq =>
      rw [show a.buffer.redo = (true, b) from heq] at hredo
      exact .withBuffer _ hredo
    · exact .say _ _
  | paste =>
    dsimp only
    split
    · exact replaceSelection_works _ _
    · exact .say _ _
  | save => exact absurd rfl hsave
  | quit => exact absurd rfl hquit
  | toggleStructural => exact ⟨.refl _, rfl, rfl, rfl⟩
  | openPrompt => exact ⟨.refl _, rfl, rfl, rfl⟩

/-! ### What a key does -/

theorem pressed_of_action {a : App} {e : Event} {action : Action}
    (h : a.action? e.chord = some action) :
    a.prompt = none ∧
      a.pressed e = ({ a with status := none }.perform e.fault action).reported.app := by
  unfold action? at h
  rcases hprompt : a.prompt with _ | input
  · rw [hprompt] at h
    have hresolve : a.keyMap.resolve? e.chord = some action := h
    refine ⟨rfl, ?_⟩
    rw [pressed, press, hprompt]
    dsimp only
    rw [hresolve]
  · rw [hprompt] at h
    cases h

/-- A key that performs no action leaves the editor alone, or is typed at the prompt. -/
theorem pressed_idle {a : App} {e : Event} (h : a.action? e.chord = none) :
    a.pressed e = a ∨ a.prompt ≠ none ∧ Works a (a.pressed e) := by
  rw [pressed, press]
  rcases hprompt : a.prompt with _ | input
  · rw [action?, hprompt] at h
    have hresolve : a.keyMap.resolve? e.chord = none := h
    dsimp only
    rw [hresolve]
    exact .inl rfl
  · refine .inr ⟨Option.some_ne_none input, ?_⟩
    exact (pressAtPrompt_works a input e.chord.key).trans (reported_works _)

theorem pressed_works {a : App} {e : Event} {action : Action}
    (h : a.action? e.chord = some action) (hsave : action ≠ .save) (hquit : action ≠ .quit) :
    Works { a with quitArmed := false } (a.pressed e) := by
  rw [(pressed_of_action h).2]
  have hperform := (perform_works { a with status := none } e.fault hsave hquit).trans
    (reported_works _)
  exact ⟨hperform.buffer, hperform.savedVersion, hperform.quitArmed, hperform.quit⟩

/-- Saving takes the version of the text over as `savedVersion` if the write succeeds, and disarms
quitting. -/
theorem pressed_save {a : App} {e : Event} (h : a.action? e.chord = some .save) :
    (a.pressed e).buffer = a.buffer ∧
      (a.pressed e).savedVersion = (if a.saves e then a.buffer.version else a.savedVersion) ∧
      (a.pressed e).quitArmed = false ∧ (a.pressed e).quit = a.quit := by
  have hsaves : a.saves e = (a.path.isSome && e.fault.isNone) := by
    rw [saves, h]
    rfl
  rw [(pressed_of_action h).2, hsaves, perform]
  rw [if_neg (show ¬Action.save = Action.quit from Action.noConfusion)]
  dsimp only
  unfold save
  rcases hpath : a.path with _ | path
  · exact ⟨rfl, rfl, rfl, rfl⟩
  · rcases hfault : e.fault with _ | reason
    · exact ⟨rfl, rfl, rfl, rfl⟩
    · exact ⟨rfl, rfl, rfl, rfl⟩

/-- An attempt to quit leaves the buffer alone.  It succeeds if the text is saved or if the attempt
before armed it. -/
theorem pressed_quit {a : App} {e : Event} (h : a.action? e.chord = some .quit) :
    (a.pressed e).buffer = a.buffer ∧ (a.pressed e).savedVersion = a.savedVersion ∧
      (a.pressed e).prompt = none ∧
      ((a.pressed e).quit = true → a.quit = true ∨ a.isDirty = false ∨ a.quitArmed = true) := by
  obtain ⟨hprompt, heq⟩ := pressed_of_action h
  have hreq : a.pressed e = { a with status := none }.requestQuit := by
    rw [heq, perform, if_pos rfl]
    rfl
  rw [hreq, requestQuit]
  by_cases harm : ({ a with status := none } : App).isDirty && !a.quitArmed
  · rw [if_pos harm]
    exact ⟨rfl, rfl, hprompt, fun hquit => .inl hquit⟩
  · rw [if_neg harm]
    refine ⟨rfl, rfl, hprompt, fun _ => .inr ?_⟩
    have hnot : ¬(a.isDirty && !a.quitArmed) = true := harm
    by_cases harmed : a.quitArmed
    · exact .inr harmed
    · rw [Bool.eq_false_iff.mpr harmed, Bool.not_false, Bool.and_true] at hnot
      exact .inl (Bool.eq_false_iff.mpr hnot)

/-- What is known of an editor that started with the saved text `saved` and took some keys: the
saved version stands for the saved text, and quitting is only armed while the last action was to
quit. -/
structure Tracked (start : App) (saved : List Char) (events : List Event) : Prop where
  version_le : (start.after events).savedVersion ≤ (start.after events).buffer.version
  text_eq : (start.after events).buffer.version = (start.after events).savedVersion →
    (start.after events).text = start.savedText saved events
  armed : (start.after events).quitArmed = true →
    (start.after events).prompt = none ∧ start.QuitLast events

namespace Tracked

variable {start : App} {saved : List Char} {events : List Event}

/-- A key that does not save leaves the saved text `Tracked`, and the text may only differ from it
under a greater version. -/
theorem of_works {e : Event} (h : Tracked start saved events)
    (hsaves : (start.after events).saves e = false)
    (hbuffer : (start.after events).buffer.Advances ((start.after events).pressed e).buffer)
    (hversion : ((start.after events).pressed e).savedVersion = (start.after events).savedVersion)
    (harmed : ((start.after events).pressed e).quitArmed = true →
      ((start.after events).pressed e).prompt = none ∧ start.QuitLast (events ++ [e])) :
    Tracked start saved (events ++ [e]) := by
  have hle := h.version_le
  have hadvance := hbuffer.version_le
  constructor
  · rw [after_append, hversion]
    omega
  · rw [after_append, hversion, savedText_append, hsaves, if_neg Bool.false_ne_true]
    intro heq
    rw [text, hbuffer.text_eq (by omega)]
    exact h.text_eq (by omega)
  · rw [after_append]
    exact harmed

theorem idle (h : Tracked start saved events) {e : Event}
    (haction : (start.after events).action? e.chord = none) :
    Tracked start saved (events ++ [e]) := by
  have hsaves : (start.after events).saves e = false := by
    rw [saves, haction]
    rfl
  rcases pressed_idle haction with hsame | ⟨hprompt, hworks⟩
  · refine h.of_works hsaves ?_ ?_ ?_
    · rw [hsame]
      exact .refl _
    · rw [hsame]
    · rw [hsame]
      intro harmed
      obtain ⟨hprompt, hlast⟩ := h.armed harmed
      refine ⟨hprompt, .idle hlast haction ?_⟩
      rw [after_append, hsame]
  · -- the prompt is open, so quitting is not armed, and stays so
    refine h.of_works hsaves hworks.buffer hworks.savedVersion ?_
    rw [hworks.quitArmed]
    intro harmed
    exact absurd (h.armed harmed).1 hprompt

theorem save (h : Tracked start saved events) {e : Event}
    (haction : (start.after events).action? e.chord = some .save) :
    Tracked start saved (events ++ [e]) := by
  obtain ⟨hbuffer, hversion, harmed, -⟩ := pressed_save haction
  by_cases hsaves : (start.after events).saves e
  · rw [if_pos hsaves] at hversion
    constructor
    · rewrite [after_append, hversion, hbuffer]
      exact Nat.le_refl _
    · rw [after_append, savedText_append, if_pos hsaves, text, hbuffer]
      intro _
      rfl
    · rw [after_append, harmed]
      intro hfalse
      cases hfalse
  · rw [if_neg hsaves] at hversion
    refine h.of_works (Bool.eq_false_iff.mpr hsaves) ?_ hversion ?_
    · rw [hbuffer]
      exact .refl _
    · rw [harmed]
      intro hfalse
      cases hfalse

theorem quit (h : Tracked start saved events) {e : Event}
    (haction : (start.after events).action? e.chord = some .quit) :
    Tracked start saved (events ++ [e]) := by
  have hsaves : (start.after events).saves e = false := by
    rw [saves, haction]
    rfl
  obtain ⟨hbuffer, hversion, hprompt, -⟩ := pressed_quit haction
  refine h.of_works hsaves ?_ hversion ?_
  · rw [hbuffer]
    exact .refl _
  · intro _
    refine ⟨hprompt, .quit haction ?_⟩
    rw [after_append, text, hbuffer, text]

/-- The saved version stands for the saved text, by `Tracked`, after one more key. -/
theorem pressed (h : Tracked start saved events) (e : Event) :
    Tracked start saved (events ++ [e]) := by
  rcases haction : (start.after events).action? e.chord with _ | action
  · exact h.idle haction
  · by_cases hsave : action = .save
    · rw [hsave] at haction
      exact h.save haction
    · by_cases hquit : action = .quit
      · rw [hquit] at haction
        exact h.quit haction
      · have hsaves : (start.after events).saves e = false := by
          rw [saves, haction]
          simp [hsave]
        have hworks := pressed_works haction hsave hquit
        refine h.of_works hsaves hworks.buffer hworks.savedVersion ?_
        rw [hworks.quitArmed]
        intro hfalse
        cases hfalse

end Tracked

end App

end SexpEdit
