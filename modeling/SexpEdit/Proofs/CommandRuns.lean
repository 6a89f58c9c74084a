/-
Runs of commands.

Commands are made one after another, each in offsets of the text that the ones before it left.  On
plain text that is a fold of splices.  A host that is writable and has no gate goes along with the
fold up to the first command that reaches outside the text as it is then.  It says where that command
starts and ends and how long the text was, and what was made before it stays made.  A grouped run
does the same and ends the undo group, whatever came of it.

* `Command.exists_misfit` — commands that do not all fit have a first one that does not;
* `Host.applyAll_of_fit`, `Host.applyAll_of_misfit` — what a host makes of commands in either case;
* `Checked.applyGrouped_of_applyAll` — a grouped run has the same result and leaves no group open;
* `Checked.commands_run_as_splices` — so runs of commands on words are folds of splices.
-/
import SexpEdit.Proofs.CheckedTransactions
import SexpEdit.Proofs.SafeRun
import SexpEdit.Proofs.Typing

namespace SexpEdit

/-! ### Commands on plain text -/

namespace Command

/-- Where the text that a command replaces ends. -/
def reach : Command → Nat
  | insert s _ => s
  | delete s n => s + n

/-- The text `cs` after a command. -/
def spliced (cs : List Char) : Command → List Char
  | insert s new => cs.take s ++ (new ++ cs.drop s)
  | delete s n => cs.take s ++ cs.drop (s + n)

/-- The text `cs` after commands, one after another: each is `spliced` into it. -/
def splicedAll (cs : List Char) (commands : List Command) : List Char :=
  commands.foldl spliced cs

/-- Each command has its `reach` inside the text that the ones before it left. -/
def Fit (cs : List Char) : List Command → Prop
  | [] => True
  | c :: commands => c.reach ≤ cs.length ∧ Fit (c.spliced cs) commands

theorem splice?_eq (cs : List Char) (c : Command) :
    c.splice? cs = if c.reach ≤ cs.length then some (c.spliced cs) else none := by
  cases c <;> rfl

theorem spliceAll?_of_fit {commands : List Command} : ∀ {cs : List Char}, Fit cs commands →
    spliceAll? cs commands = some (splicedAll cs commands) := by
  induction commands with
  | nil =>
    intro cs _
    rfl
  | cons c commands ih =>
    intro cs hfit
    rw [spliceAll?_cons, splice?_eq, if_pos hfit.1, Option.bind_some, ih hfit.2]
    rfl

/-- Commands that do not all `Fit` have a first one that does not. -/
theorem exists_misfit {commands : List Command} : ∀ {cs : List Char}, ¬Fit cs commands →
    ∃ before c after, commands = before ++ c :: after ∧ Fit cs before ∧
      (splicedAll cs before).length < c.reach := by
  induction commands with
  | nil =>
    intro cs hmisfit
    exact absurd trivial hmisfit
  | cons c commands ih =>
    intro cs hmisfit
    by_cases hc : c.reach ≤ cs.length
    · have hrest : ¬Fit (c.spliced cs) commands := fun hfit => hmisfit ⟨hc, hfit⟩
      obtain ⟨before, d, after, rfl, hfit, hout⟩ := ih hrest
      exact ⟨c :: before, d, after, rfl, ⟨hc, hfit⟩, hout⟩
    · exact ⟨[], c, commands, rfl, trivial, Nat.lt_of_not_le hc⟩

theorem stop_op (c : Command) : c.op.stop = c.reach := by
  cases c <;> rfl

/-- The `check` refuses a command whose `reach` is outside the text, and names what it asked for. -/
theorem check_of_misfit {length : Nat} {c : Command} (h : length < c.reach) :
    Op.check length 0 [c.op] = .error (.outOfBounds c.start c.reach length) := by
  have hstart : c.op.start = c.start := by cases c <;> rfl
  rw [Op.check, hstart, stop_op, if_pos]
  rw [Bool.or_eq_true, decide_eq_true_eq, decide_eq_true_eq]
  exact .inr h

end Command

/-! ### Commands on a host -/

namespace Host

variable {h : Host} {commands before after : List Command} {c : Command}

/-- A command whose `reach` is outside the text is refused, and the buffer does not change. -/
theorem edit_of_misfit (hopen : h.Open) (hout : h.length < c.reach) :
    h.edit .join [c.op] =
      (.error (.outOfBounds c.start c.reach h.length), { h with calls := h.calls + 1 }) := by
  have hbuffer : h.buffer.edit .join [c.op] =
      (.error (.outOfBounds c.start c.reach h.length), h.buffer) :=
    Buffer.edit_of_error hopen.2 (Command.check_of_misfit hout)
  simp only [edit, hopen.1, hbuffer]

/-- A run `applyAll` goes on where the commands made so far left the host. -/
theorem applyAll_append {made : Host} {cs : List Command} : ∀ {h : Host},
    h.applyAll cs = (.ok true, made) → ∀ rest, h.applyAll (cs ++ rest) = made.applyAll rest := by
  induction cs with
  | nil =>
    intro h hrun rest
    obtain rfl := (Prod.mk.inj hrun).2
    rfl
  | cons c cs ih =>
    intro h hrun rest
    rw [applyAll] at hrun
    rw [List.cons_append, applyAll]
    split at hrun
    · exact ih hrun rest
    · next hne => exact absurd hrun (hne made)

/-- Commands that `Fit` are all made. -/
theorem applyAll_of_fit (hopen : h.Open) (hfit : Command.Fit h.text commands) :
    (h.applyAll commands).1 = .ok true ∧
      (h.applyAll commands).2.text = Command.splicedAll h.text commands := by
  obtain ⟨made, hrun, htext⟩ := applyAll_of_spliceAll? hopen (Command.spliceAll?_of_fit hfit)
  rw [hrun]
  exact ⟨rfl, htext⟩

/-- A run stops at the first command that does not `Fit`. Those before it are made, and those behind
it are not looked at. -/
theorem applyAll_of_misfit (hopen : h.Open) (hfit : Command.Fit h.text before)
    (hout : (Command.splicedAll h.text before).length < c.reach) :
    (h.applyAll (before ++ c :: after)).1 =
        .error (.outOfBounds c.start c.reach (Command.splicedAll h.text before).length) ∧
      (h.applyAll (before ++ c :: after)).2.text = Command.splicedAll h.text before := by
  obtain ⟨made, hrun, hmade, htext⟩ := applyAll_open hopen (Command.spliceAll?_of_fit hfit)
  rw [← htext] at hout ⊢
  rw [applyAll_append hrun, applyAll, edit_of_misfit hmade hout]
  exact ⟨rfl, rfl⟩

theorem applyAll_isOpen (hopen : h.Open) (cs : List Command) : (h.applyAll cs).2.Open := by
  obtain ⟨log, htrace, -⟩ := applyAll_joinsTo cs h
  exact ⟨htrace.gate.trans hopen.1, htrace.readOnly.trans hopen.2⟩

end Host

namespace Checked

variable {h : Host} {commands : List Command}

/-- A grouped run on words has the result and the text of a plain one, and it leaves no undo group
open. -/
theorem applyGrouped_of_applyAll {result : Except EditError Bool} {made : Host}
    (hrun : applyAll h commands = pure (result, made)) (hopen : made.Open) :
    ∃ closed, applyGrouped h commands = pure (result, closed) ∧ closed.text = made.text ∧
      closed.buffer.groupOpen = false := by
  obtain ⟨last, hstop, -, htext⟩ := Host.undoStop_ok hopen
  have hclosed : last.buffer.groupOpen = false := by
    have hbuffer := Host.undoStop_buffer hopen.passesCheckpoints
    rw [hstop] at hbuffer
    rw [hbuffer]
  have hlast : undoStop made = pure (.ok true, last) := by rw [undoStop_eq, hstop]
  refine ⟨last, ?_, htext, hclosed⟩
  rw [applyGrouped, hrun, pure_bind]
  dsimp only
  rcases result with e | ⟨_ | _⟩
  · rw [closeOnFailure_eq, Host.closeOnFailure_of_ne (by rintro ⟨⟩), hstop]
    rfl
  · rw [closeOnFailure_eq, Host.closeOnFailure_of_ne (by rintro ⟨⟩), hstop]
    rfl
  · exact hlast

/-- **Runs of commands are folds of splices.**  On a writable buffer, commands that each stay inside
the text left by the ones before them are all made.  Otherwise the run stops at the first that does
not, with its range and the length of the text at that point, and the text is what the commands
before it made.  A grouped run comes to the same result and the same text, and in either case its
undo group is closed.  Both runs break off instead, because a number is too large, only if the end of
some command is no machine word, or if the anchor or the cursor cannot be moved by what is put in. -/
theorem commands_run_as_splices {b : Buffer} (hwritable : b.readOnly = false)
    (commands : List Command) :
    (∃ result made closed, applyAll (.ofBuffer b) commands = pure (result, made) ∧
      applyGrouped (.ofBuffer b) commands = pure (result, closed) ∧
      closed.text = made.text ∧ closed.buffer.groupOpen = false ∧
      (Command.Fit b.text commands →
        result = .ok true ∧ made.text = Command.splicedAll b.text commands) ∧
      (¬Command.Fit b.text commands → ∃ before c after, commands = before ++ c :: after ∧
        Command.Fit b.text before ∧ (Command.splicedAll b.text before).length < c.reach ∧
        result = .error
          (.outOfBounds c.start c.reach (Command.splicedAll b.text before).length) ∧
        made.text = Command.splicedAll b.text before)) ∨
    ¬((∀ c ∈ commands, c.reach ≤ maxWord) ∧ b.selection.Movable (Command.grown commands)) ∧
      ∃ f, applyAll (.ofBuffer b) commands = throw f ∧
        applyGrouped (.ofBuffer b) commands = throw f ∧ f.isSize := by
  have hopen : (Host.ofBuffer b).Open := ⟨rfl, hwritable⟩
  have hgives : Gives
      ((∀ c ∈ commands, c.reach ≤ maxWord) ∧ b.selection.Movable (Command.grown commands))
      (applyAll (.ofBuffer b) commands) _ _ :=
    applyAll_gives commands (.ofBuffer b)
      (fun hroom c hc => by rw [Command.stop_op]; exact hroom.1 c hc) fun hroom => hroom.2
  cases hgives with
  | value r hrun hr _ =>
    obtain ⟨result, made⟩ := r
    obtain ⟨rfl, hagrees⟩ : result = _ ∧ made.Agrees _ := hr
    have hmade := hagrees.isOpen (Host.applyAll_isOpen hopen commands)
    obtain ⟨closed, hgrouped, hkept, hclosed⟩ := applyGrouped_of_applyAll hrun hmade
    refine .inl ⟨_, made, closed, hrun, hgrouped, hkept, hclosed, ?_⟩
    rw [hagrees.text]
    refine ⟨Host.applyAll_of_fit hopen, fun hmisfit => ?_⟩
    obtain ⟨before, c, after, rfl, hfit, hout⟩ := Command.exists_misfit hmisfit
    exact ⟨before, c, after, rfl, hfit, hout, Host.applyAll_of_misfit hopen hfit hout⟩
  | outgrown f hrun hsize hroom =>
    refine .inr ⟨hroom, f, hrun, ?_, hsize⟩
    rw [applyGrouped, hrun]
    rfl

/-- The third command asks for the character behind the end of the text that the first two left, and
the fourth is not made. -/
theorem commands_run_as_splices_stopped :
    let b := Buffer.ofText "clojure" ['λ', 'b', 'c']
    let commands : List Command := [.delete 0 1, .insert 2 ['é'], .delete 3 1, .insert 0 ['z']]
    b.readOnly = false ∧ ¬Command.Fit b.text commands ∧
      ∃ made closed, applyAll (.ofBuffer b) commands = pure (.error (.outOfBounds 3 4 3), made) ∧
        applyGrouped (.ofBuffer b) commands = pure (.error (.outOfBounds 3 4 3), closed) ∧
        made.text = ['b', 'c', 'é'] ∧ closed.text = made.text ∧
        closed.buffer.groupOpen = false := by
  intro b commands
  have hwritable : b.readOnly = false := rfl
  have hmisfit : ¬Command.Fit b.text commands := by
    rintro ⟨-, -, hthird, -⟩
    exact absurd hthird (by decide)
  refine ⟨hwritable, hmisfit, ?_⟩
  rcases commands_run_as_splices hwritable commands with
    ⟨result, made, closed, hrun, hgrouped, htext, hclosed, -, -⟩ | ⟨hstuck, -⟩
  · have hvalue : (applyAll (.ofBuffer b) commands).map (fun r => (r.1, r.2.text)) =
        .ok (.error (.outOfBounds 3 4 3), ['b', 'c', 'é']) := by decide +kernel
    rw [hrun] at hvalue
    obtain ⟨rfl, hmade⟩ := Prod.mk.inj (Except.ok.inj hvalue)
    exact ⟨made, closed, hrun, hgrouped, hmade, htext, hclosed⟩
  · refine absurd ⟨?_, ?_⟩ hstuck
    · decide
    · exact ⟨by decide, by decide⟩

/-- A deletion behind the end of the text, so long that its end is no machine word: it is not refused
with its range, the run breaks off. -/
theorem command_end_outgrows_word :
    let b := Buffer.ofText "clojure" ['a', 'b', 'c']
    let commands : List Command := [.delete 5 maxWord]
    b.readOnly = false ∧ ¬Command.Fit b.text commands ∧
      applyAll (.ofBuffer b) commands = throw (.overflow 5 maxWord) ∧
      applyGrouped (.ofBuffer b) commands = throw (.overflow 5 maxWord) := by
  intro b commands
  have hplus : plus 5 maxWord = throw (.overflow 5 maxWord) := if_neg (by decide)
  have hrun : applyAll (.ofBuffer b) commands = throw (.overflow 5 maxWord) := by
    rw [applyAll, op, hplus]
    rfl
  refine ⟨rfl, ?_, hrun, by rw [applyGrouped, hrun]; rfl⟩
  rintro ⟨hreach, -⟩
  exact absurd hreach (by decide)

end Checked

end SexpEdit
