/-
Commands as splices.

A command puts text in at an offset or takes text out there; `Command.splice?` is that on plain
text.  A host that is writable and has no gate does the same with the text of its buffer, one
transaction for each command.

* `Host.applyAll_of_spliceAll?` — commands that stay inside the text are all made, in order;
* `Makes` — what the changes of an edit make of a text, one step for each change.
-/
import SexpEdit.Edit
import SexpEdit.Proofs.Deltas

namespace SexpEdit

namespace Command

/-- The text `cs` after a command; `none` when the command reaches outside the text. -/
def splice? (cs : List Char) : Command → Option (List Char)
  | .insert s new => if s ≤ cs.length then some (cs.take s ++ (new ++ cs.drop s)) else none
  | .delete s n => if s + n ≤ cs.length then some (cs.take s ++ cs.drop (s + n)) else none

/-- The text `cs` after `commands`, each in the text that the ones before it left. -/
def spliceAll? (cs : List Char) (commands : List Command) : Option (List Char) :=
  commands.foldlM splice? cs

theorem spliceAll?_cons (cs : List Char) (c : Command) (commands : List Command) :
    spliceAll? cs (c :: commands) = (splice? cs c).bind (spliceAll? · commands) :=
  List.foldlM_cons

/-- A command that stays inside the text passes the `check`, and its op makes the splice. -/
theorem check_apply_of_splice? {cs out : List Char} {c : Command} (h : splice? cs c = some out) :
    Op.check cs.length 0 [c.op] = .ok () ∧ Op.apply [c.op] cs = out ∧
      (c.op.isNoop = true → out = cs) := by
  cases c with
  | insert s new =>
    by_cases hs : s ≤ cs.length
    · simp only [splice?, if_pos hs, Option.some.injEq] at h
      have hs' : ¬cs.length < s := by omega
      refine ⟨by simp [op, Op.check, Op.start, Op.stop, hs'], h, fun hnoop => ?_⟩
      obtain rfl : new = [] := by simpa [op, Op.isNoop] using hnoop
      rw [← h, List.nil_append, List.take_append_drop]
    · simp [splice?, hs] at h
  | delete s n =>
    by_cases hs : s + n ≤ cs.length
    · simp only [splice?, if_pos hs, Option.some.injEq] at h
      have hs' : ¬cs.length < s + n := by omega
      have hle : ¬s + n < s := by omega
      refine ⟨by simp [op, Op.check, Op.start, Op.stop, hs', hle], h, fun hnoop => ?_⟩
      have hn : s + n ≤ s := by simpa [op, Op.isNoop] using hnoop
      obtain rfl : n = 0 := by omega
      rw [← h, Nat.add_zero, List.take_append_drop]
    · simp [splice?, hs] at h

end Command

namespace Host

/-- A host that takes every transaction that fits its text. -/
def Open (h : Host) : Prop :=
  h.gate = none ∧ h.buffer.readOnly = false

theorem edit_of_splice? {h : Host} (hopen : h.Open) {c : Command} {out : List Char}
    (hs : c.splice? h.text = some out) :
    ∃ h', h.edit .join [c.op] = (.ok true, h') ∧ h'.Open ∧ h'.text = out := by
  obtain ⟨hgate, hro⟩ := hopen
  obtain ⟨hcheck, happly, hnoop⟩ := Command.check_apply_of_splice? hs
  have harrange : Op.arrange [c.op] = [c.op] := rfl
  have hbuffer : ∃ b, h.buffer.edit .join [c.op] = (.ok true, b) ∧ b.readOnly = false ∧
      b.text = out := by
    have hcheck : Op.check h.buffer.length 0 [c.op] = .ok () := hcheck
    unfold Buffer.edit
    simp only [hro, UndoStops.join, Buffer.stopGroup, Bool.false_eq_true, if_false, harrange,
      hcheck]
    by_cases hn : c.op.isNoop
    · -- an idle op is accepted without a commit
      refine ⟨h.buffer, by simp [hn], hro, ?_⟩
      rw [hnoop hn]
      rfl
    · exact ⟨h.buffer.commit [c.op], by simp [hn], hro, (Buffer.text_commit hcheck).trans happly⟩
  obtain ⟨b, hb, hbro, hbtext⟩ := hbuffer
  refine ⟨{ h with buffer := b, calls := h.calls + 1 }, ?_, ⟨hgate, hbro⟩, hbtext⟩
  simp only [edit, hgate, hb]

/-- A host stays `Open` while it runs commands that stay inside its text. -/
theorem applyAll_open {commands : List Command} {out : List Char} :
    ∀ {h : Host}, h.Open → Command.spliceAll? h.text commands = some out →
      ∃ h', h.applyAll commands = (.ok true, h') ∧ h'.Open ∧ h'.text = out := by
  induction commands with
  | nil =>
    intro h hopen hs
    exact ⟨h, rfl, hopen, Option.some.inj hs⟩
  | cons c commands ih =>
    intro h hopen hs
    rw [Command.spliceAll?_cons] at hs
    obtain ⟨mid, hmid, hrest⟩ := Option.bind_eq_some_iff.mp hs
    obtain ⟨h', hedit, hopen', rfl⟩ := edit_of_splice? hopen hmid
    rw [applyAll, hedit]
    exact ih hopen' hrest

/-- **An `Open` host runs commands as splices of its text.** -/
theorem applyAll_of_spliceAll? {commands : List Command} {out : List Char} {h : Host}
    (hopen : h.Open) (hs : Command.spliceAll? h.text commands = some out) :
    ∃ h', h.applyAll commands = (.ok true, h') ∧ h'.text = out := by
  obtain ⟨h', hrun, -, htext⟩ := applyAll_open hopen hs
  exact ⟨h', hrun, htext⟩

end Host

/-! ### The changes of an edit -/

/-- Changes stand for commands, and the commands turn the text `cs` into the text `out`. -/
def Makes (cs : List Char) (changes : List Change) (out : List Char) : Prop :=
  ∃ commands, Change.commands changes = .ok commands ∧ Command.spliceAll? cs commands = some out

namespace Makes

theorem nil (cs : List Char) : Makes cs [] cs :=
  ⟨[], rfl, rfl⟩

/-- There is one text that changes make, by `Makes`. -/
theorem unique {cs out out' : List Char} {changes : List Change} (h : Makes cs changes out)
    (h' : Makes cs changes out') : out = out' := by
  obtain ⟨commands, hcommands, hout⟩ := h
  obtain ⟨commands', hcommands', hout'⟩ := h'
  rw [hcommands, Except.ok.injEq] at hcommands'
  rw [← hcommands', hout, Option.some.injEq] at hout'
  exact hout'

theorem commands_append {xs ys : List Change} {cs ds : List Command}
    (hxs : Change.commands xs = .ok cs) (hys : Change.commands ys = .ok ds) :
    Change.commands (xs ++ ys) = .ok (cs ++ ds) := by
  induction xs generalizing cs with
  | nil =>
    cases hxs
    exact hys
  | cons x xs ih =>
    rw [Change.commands] at hxs
    rw [List.cons_append, Change.commands]
    split at hxs
    · cases hxs
    · rename_i first _
      split at hxs
      · cases hxs
      · rename_i rest hrest
        cases hxs
        rw [ih hrest]
        rfl

theorem append {cs mid out : List Char} {xs ys : List Change} (hxs : Makes cs xs mid)
    (hys : Makes mid ys out) : Makes cs (xs ++ ys) out := by
  obtain ⟨c, hc, hmid⟩ := hxs
  obtain ⟨d, hd, hout⟩ := hys
  refine ⟨c ++ d, commands_append hc hd, ?_⟩
  rw [Command.spliceAll?, List.foldlM_append]
  rw [Command.spliceAll?] at hmid hout
  rw [hmid]
  exact hout

theorem insertion (before after : List Char) {cs new out : List Char} {s : Nat}
    {changes : List Change} (hcs : cs = before ++ after) (hs : s = before.length)
    (h : Makes (before ++ (new ++ after)) changes out) :
    Makes cs (.insertion s new :: changes) out := by
  obtain ⟨commands, hcommands, hsplice⟩ := h
  refine ⟨.insert s new :: commands, ?_, ?_⟩
  · rw [Change.commands, hcommands]
    rfl
  · rw [Command.spliceAll?_cons, Command.splice?, hcs, hs]
    simpa using hsplice

theorem deletion (before old after : List Char) {cs out : List Char} {s n : Nat}
    {changes : List Change} (hcs : cs = before ++ (old ++ after)) (hs : s = before.length)
    (hn : n = old.length) (h : Makes (before ++ after) changes out) :
    Makes cs (.deletion s n :: changes) out := by
  obtain ⟨commands, hcommands, hsplice⟩ := h
  have hdrop : (before ++ (old ++ after)).drop (before.length + old.length) = after := by
    rw [← List.append_assoc, ← List.length_append, List.drop_left]
  refine ⟨.delete s n :: commands, ?_, ?_⟩
  · rw [Change.commands, hcommands]
    rfl
  · rw [Command.spliceAll?_cons, Command.splice?, hcs, hs, hn, hdrop]
    simpa using hsplice

/-- The texts `x` and `y` change places, the second one first. -/
theorem exchanged (before x mid y after : List Char) :
    Makes (before ++ (x ++ (mid ++ (y ++ after))))
      [.deletion (before ++ (x ++ mid)).length y.length,
        .insertion (before ++ (x ++ mid)).length x,
        .deletion before.length x.length, .insertion before.length y]
      (before ++ (y ++ (mid ++ (x ++ after)))) := by
  refine .deletion (before ++ (x ++ mid)) y after (by simp) rfl rfl ?_
  refine .insertion (before ++ (x ++ mid)) after rfl rfl ?_
  refine .deletion before x (mid ++ (x ++ after)) (by simp) rfl rfl ?_
  refine .insertion before (mid ++ (x ++ after)) rfl rfl ?_
  exact .nil _

end Makes

end SexpEdit
