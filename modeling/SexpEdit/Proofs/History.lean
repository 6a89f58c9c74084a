/-
The history leads back to the first text.

The texts at the starts of undo groups are kept on a stack.  A group is only open while its start is
on that stack, and so the bottom of the stack is the text that the buffer began with: it gets there
with the first change and nothing takes it away again.  A step back puts the text it leaves on the
stack of the texts to come, so a step forward is its inverse.

* `edit_cases` — what a transaction can do to a buffer;
* `Rooted.act` — whatever happens to a buffer, its history still ends with the first text;
* `redo_undo` — a step forward takes a step back away;
* `undo_all_and_redo` — undoing as often as possible gives the first text, and redoing as often as
  was undone gives back the last.
-/
import SexpEdit.Buffer

namespace SexpEdit.Buffer

/-! ### What can happen to a buffer -/

/-- Something that happens to a buffer. -/
inductive Move where
  | edit (stops : UndoStops) (ops : List Op)
  | undo
  | redo
  | setReadOnly (readOnly : Bool)
  | select (s : Selection)

/-- The buffer `b` after a move, whether it succeeds or not. -/
def act (b : Buffer) : Move → Buffer
  | .edit stops ops => (b.edit stops ops).2
  | .undo => b.undo.2
  | .redo => b.redo.2
  | .setReadOnly readOnly => { b with readOnly }
  | .select s => { b with selection := s }

/-- The buffer after so many times `step`, if it succeeds each time. -/
def taken? (step : Buffer → Bool × Buffer) : Nat → Buffer → Option Buffer
  | 0, b => some b
  | n + 1, b =>
    match step b with
    | (true, b) => taken? step n b
    | (false, _) => none

@[simp] theorem text_stopGroup (b : Buffer) (stop : Bool) : (b.stopGroup stop).text = b.text := by
  cases stop <;> rfl

@[simp] theorem selection_stopGroup (b : Buffer) (stop : Bool) :
    (b.stopGroup stop).selection = b.selection := by
  cases stop <;> rfl

@[simp] theorem readOnly_stopGroup (b : Buffer) (stop : Bool) :
    (b.stopGroup stop).readOnly = b.readOnly := by
  cases stop <;> rfl

/-- A transaction is declined or refused or has nothing to do, and then at most ends the group; or
it passes the check and is made by `commit`, and a group may end before and after it. -/
theorem edit_cases (b : Buffer) (stops : UndoStops) (ops : List Op) :
    (∃ stop, (b.edit stops ops).2 = b.stopGroup stop) ∨
      Op.check b.length 0 (Op.arrange ops) = .ok () ∧ ∃ before after,
        (b.edit stops ops).2 = ((b.stopGroup before).commit (Op.arrange ops)).stopGroup after := by
  have htwice : ∀ x y, (b.stopGroup x).stopGroup y = b.stopGroup (x || y) := by
    intro x y
    cases x <;> cases y <;> rfl
  unfold edit
  by_cases hro : b.readOnly
  · rw [if_pos hro]
    exact .inl ⟨stops.after, rfl⟩
  · rw [if_neg hro]
    dsimp only
    split
    · exact .inl ⟨stops.before, rfl⟩
    · next hcheck =>
      rw [length, text_stopGroup] at hcheck
      by_cases hnoop : (Op.arrange ops).all Op.isNoop
      · rw [if_pos hnoop]
        exact .inl ⟨_, htwice stops.before stops.after⟩
      · rw [if_neg hnoop]
        exact .inr ⟨hcheck, stops.before, stops.after, rfl⟩

/-! ### The first text -/

/-- The history of the buffer ends with `text`, and an open group has its start on the history. -/
structure Rooted (text : List Char) (b : Buffer) : Prop where
  bottom : (b.text :: b.past).getLast? = some text
  opened : b.groupOpen = true → b.past ≠ []

namespace Rooted

variable {text : List Char} {b : Buffer}

theorem stopGroup (h : Rooted text b) (stop : Bool) : Rooted text (b.stopGroup stop) := by
  cases stop with
  | false => exact h
  | true => exact ⟨h.bottom, fun hopen => Bool.noConfusion hopen⟩

/-- The first change of a group puts the text before it on the history.  A later one leaves the
history alone, which is not empty then, so the text that is lost was not the last of it. -/
theorem commit (h : Rooted text b) (ops : List Op) : Rooted text (b.commit ops) := by
  have hbottom := h.bottom
  by_cases hopen : b.groupOpen
  · have hpast : (b.commit ops).past = b.past := if_pos hopen
    obtain ⟨t, past, heq⟩ := List.exists_cons_of_ne_nil (h.opened hopen)
    constructor
    · rw [heq, List.getLast?_cons_cons] at hbottom
      rw [hpast, heq, List.getLast?_cons_cons]
      exact hbottom
    · intro _
      rw [hpast]
      exact h.opened hopen
  · have hpast : (b.commit ops).past = b.text :: b.past := if_neg hopen
    constructor
    · rw [hpast, List.getLast?_cons_cons]
      exact hbottom
    · intro _
      rw [hpast]
      exact List.cons_ne_nil _ _

theorem undo (h : Rooted text b) : Rooted text b.undo.2 := by
  unfold Buffer.undo
  split
  · exact h
  · next t past heq =>
    have hbottom := h.bottom
    rw [heq, List.getLast?_cons_cons] at hbottom
    exact ⟨hbottom, fun hopen => Bool.noConfusion hopen⟩

theorem redo (h : Rooted text b) : Rooted text b.redo.2 := by
  unfold Buffer.redo
  split
  · exact h
  · next t future _ =>
    refine ⟨?_, fun hopen => Bool.noConfusion hopen⟩
    show (t :: b.text :: b.past).getLast? = some text
    rw [List.getLast?_cons_cons]
    exact h.bottom

/-- Whatever happens to a buffer, its history is still `Rooted` in the first text. -/
theorem act (h : Rooted text b) (m : Move) : Rooted text (b.act m) := by
  cases m with
  | edit stops ops =>
    show Rooted text (b.edit stops ops).2
    rcases b.edit_cases stops ops with ⟨stop, heq⟩ | ⟨-, before, after, heq⟩
    · rw [heq]
      exact h.stopGroup stop
    · rw [heq]
      exact ((h.stopGroup before).commit _).stopGroup after
  | undo => exact h.undo
  | redo => exact h.redo
  | setReadOnly readOnly => exact ⟨h.bottom, h.opened⟩
  | select s => exact ⟨h.bottom, h.opened⟩

theorem foldl_act (moves : List Move) : ∀ {b : Buffer}, Rooted text b →
    Rooted text (moves.foldl Buffer.act b) := by
  induction moves with
  | nil =>
    intro b h
    exact h
  | cons m moves ih =>
    intro b h
    exact ih (h.act m)

/-- Undoing `undoDepth` times gives the first text. -/
theorem exists_taken_undo (h : Rooted text b) :
    ∃ b', taken? Buffer.undo b.undoDepth b = some b' ∧ b'.undo = (false, b') ∧ b'.text = text := by
  -- on the number of steps there are
  induction hdepth : b.undoDepth generalizing b with
  | zero =>
    have hpast : b.past = [] := List.eq_nil_of_length_eq_zero hdepth
    refine ⟨b, rfl, ?_, ?_⟩
    · rw [Buffer.undo, hpast]
    · have hbottom := h.bottom
      rw [hpast, List.getLast?_singleton] at hbottom
      exact Option.some.inj hbottom
  | succ n ih =>
    obtain ⟨t, past, hpast⟩ := List.exists_cons_of_length_eq_add_one hdepth
    have hundo : b.undo = (true, b.jump t past (b.text :: b.future)) := by
      rw [Buffer.undo, hpast]
    have hroot := h.undo
    rw [hundo] at hroot
    rw [undoDepth, hpast] at hdepth
    rw [taken?, hundo]
    exact ih hroot (Nat.succ.inj hdepth)

end Rooted

/-! ### Back and forth -/

/-- Two buffers with the same text and the same texts to go back and forward to. -/
structure SameHistory (b b' : Buffer) : Prop where
  text : b'.text = b.text
  past : b'.past = b.past
  future : b'.future = b.future

/-- A `redo` takes an `undo` away, also in a buffer that only has the `SameHistory` as the one that
went back. -/
theorem redo_undo {b b₁ b₂ : Buffer} (h : b.undo = (true, b₁)) (hsame : SameHistory b₁ b₂) :
    ∃ b', b₂.redo = (true, b') ∧ SameHistory b b' := by
  rcases hpast : b.past with _ | ⟨t, past⟩
  · rw [undo, hpast] at h
    cases h
  · rw [undo, hpast] at h
    obtain rfl : b.jump t past (b.text :: b.future) = b₁ := (Prod.mk.inj h).2
    have hfuture : b₂.future = b.text :: b.future := hsame.future
    refine ⟨b₂.jump b.text (b₂.text :: b₂.past) b.future, by rw [redo, hfuture], rfl, ?_, rfl⟩
    show b₂.text :: b₂.past = b.past
    rw [hsame.text, hsame.past, hpast]
    rfl

/-- The last of several steps that are `taken?` comes after the others. -/
theorem taken?_succ {step : Buffer → Bool × Buffer} {b b₁ b₂ : Buffer} {n : Nat}
    (h : taken? step n b = some b₁) (hstep : step b₁ = (true, b₂)) :
    taken? step (n + 1) b = some b₂ := by
  induction n generalizing b with
  | zero =>
    obtain rfl := Option.some.inj h
    rw [taken?, hstep]
    rfl
  | succ n ih =>
    rw [taken?] at h
    split at h
    · next b' heq =>
      rw [taken?, heq]
      exact ih h
    · cases h

/-- Redoing as often as was undone gives the `SameHistory` back. -/
theorem taken_redo_undo (k : Nat) : ∀ {b b' : Buffer}, taken? undo k b = some b' →
    ∃ b'', taken? redo k b' = some b'' ∧ SameHistory b b'' := by
  induction k with
  | zero =>
    intro b b' h
    obtain rfl := Option.some.inj h
    exact ⟨b, rfl, rfl, rfl, rfl⟩
  | succ k ih =>
    intro b b' h
    rw [taken?] at h
    split at h
    · next b₁ heq =>
      -- the steps after the first are taken back first
      obtain ⟨b₂, htaken, hsame⟩ := ih h
      obtain ⟨b₃, hredo, hsame'⟩ := redo_undo heq hsame
      exact ⟨b₃, taken?_succ htaken hredo, hsame'⟩
    · cases h

/-- **The history is whole.**  Whatever happened to a buffer, undoing until there is nothing left to
undo gives the text that it began with.  After any number of steps back as many steps forward are
possible, and give back the text and the number of steps that can be undone. -/
theorem undo_all_and_redo (language : String) (text : List Char) (moves : List Move) :
    let b := moves.foldl act (ofText language text)
    (∃ b', taken? undo b.undoDepth b = some b' ∧ b'.undo = (false, b') ∧ b'.text = text) ∧
      ∀ k b', taken? undo k b = some b' →
        ∃ b'', taken? redo k b' = some b'' ∧ b''.text = b.text ∧ b''.undoDepth = b.undoDepth := by
  intro b
  have hfresh : Rooted text (ofText language text) := ⟨rfl, fun hopen => Bool.noConfusion hopen⟩
  have hroot : Rooted text b := hfresh.foldl_act moves
  refine ⟨hroot.exists_taken_undo, ?_⟩
  intro k b' hundo
  obtain ⟨b'', hredo, hsame⟩ := taken_redo_undo k hundo
  refine ⟨b'', hredo, hsame.text, ?_⟩
  rw [undoDepth, undoDepth, hsame.past]

/-- A group of two changes that a refused transaction ends, another group, a change that is undone,
and a transaction that is declined: two steps are left, and can be taken back and forth. -/
theorem undo_all_and_redo_refused :
    let moves : List Move :=
      [.edit .join [.insert 1 ['b']], .edit .join [.delete 0 1], .edit ⟨true, true⟩ [.delete 2 9],
        .edit .join [.insert 0 ['c', 'd']], .edit .checkpoint [.insert 0 ['e']], .undo, .redo,
        .edit ⟨true, false⟩ [.insert 3 ['f']], .undo, .setReadOnly true,
        .edit .checkpoint [.insert 0 ['g']], .select (.caret 9)]
    let b := moves.foldl act (ofText "clojure" ['a'])
    b.text = ['e', 'c', 'd', 'b'] ∧ b.undoDepth = 2 ∧
      (∃ b', taken? undo 2 b = some b' ∧ b'.undo = (false, b') ∧ b'.text = ['a']) ∧
      ∃ b' b'', taken? undo 2 b = some b' ∧ taken? redo 2 b' = some b'' ∧
        b''.text = ['e', 'c', 'd', 'b'] ∧ b''.undoDepth = 2 := by
  intro moves b
  have htext : b.text = ['e', 'c', 'd', 'b'] := by decide +kernel
  have hdepth : b.undoDepth = 2 := by decide +kernel
  obtain ⟨hall, hback⟩ := undo_all_and_redo "clojure" ['a'] moves
  change ∃ b', taken? undo b.undoDepth b = some b' ∧ _ at hall
  rw [hdepth] at hall
  obtain ⟨b', hundo, hend, hfirst⟩ := hall
  obtain ⟨b'', hredo, htext', hdepth'⟩ := hback 2 b' hundo
  exact ⟨htext, hdepth, ⟨b', hundo, hend, hfirst⟩, b', b'', hundo, hredo, htext'.trans htext,
    hdepth'.trans hdepth⟩

end SexpEdit.Buffer
