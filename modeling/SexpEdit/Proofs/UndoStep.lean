/-
Every operation is one undo step.

An operation makes its changes in transactions that join the open undo group, and ends the group
with a checkpoint.  A host may turn down any of the joining transactions, so an operation can stop
after each of them.  What it did is recorded as a `Trace`: the transactions it asked for, with
selections in between.

* `Trace.joins` — from a closed group, joining transactions that change nothing leave the history
  alone, and the first one that changes the text records the text before it, once;
* `Session.run_stepsTo` — every operation makes joining transactions and then a checkpoint, on every
  way out, or asks for nothing;
* `Workbench.each_run_is_one_undo_step` — so in every run of operations each is undone in one step.
-/
import SexpEdit.Proofs.Deltas
import SexpEdit.Session

namespace SexpEdit

/-! ### One transaction -/

namespace Op

/-- An op that is not `isNoop` changes the length of the text, and so the text. -/
theorem apply_singleton_ne {cs : List Char} {op : Op} (h : check cs.length 0 [op] = .ok ())
    (hop : op.isNoop = false) : apply [op] cs ≠ cs := by
  obtain ⟨hle, hstop, -, -⟩ := check_cons h
  intro heq
  have hlen := congrArg List.length heq
  cases op with
  | insert s new =>
    have hnew : 0 < new.length := by
      cases new with
      | nil => cases hop
      | cons c new => simp
    simp only [start, stop] at hle hstop
    simp only [apply, applyFrom, List.length_append, List.length_take, List.length_drop] at hlen
    omega
  | delete s e =>
    have hse : s < e := by simpa [isNoop] using hop
    simp only [start, stop] at hle hstop
    simp only [apply, applyFrom, List.length_append, List.length_take, List.length_drop] at hlen
    omega

end Op

namespace Buffer

/-- A transaction of one op that is to `join` leaves the buffer alone, or it is accepted and changes
the text. -/
theorem edit_join_cases (b : Buffer) (op : Op) :
    (b.edit .join [op]).2 = b ∨
      (b.edit .join [op]).1 = .ok true ∧ (b.edit .join [op]).2 = b.commit [op] ∧
        (b.commit [op]).text ≠ b.text := by
  have harrange : Op.arrange [op] = [op] := rfl
  unfold edit
  by_cases hro : b.readOnly
  · rw [if_pos hro]
    exact .inl rfl
  · rw [if_neg hro]
    simp only [UndoStops.join, stopGroup, Bool.false_eq_true, if_false, harrange]
    split
    · exact .inl rfl
    · next hcheck =>
      by_cases hnoop : op.isNoop
      · simp [hnoop]
      · have hnoop : op.isNoop = false := by simpa using hnoop
        refine .inr ⟨rfl, by simp [hnoop], ?_⟩
        rw [text_commit hcheck]
        exact Op.apply_singleton_ne hcheck hnoop

/-- A `checkpoint` ends the group and does nothing else. -/
theorem edit_checkpoint (b : Buffer) :
    (b.edit .checkpoint [.insert 0 []]).2 = { b with groupOpen := false } := by
  unfold edit
  by_cases hro : b.readOnly
  · rw [if_pos hro]
    rfl
  · rw [if_neg hro]
    simp [UndoStops.checkpoint, stopGroup, Op.arrange, Op.place, Op.check, Op.start, Op.stop,
      Op.isNoop]

end Buffer

/-- A transaction that a host was asked for: the host as it was then, and what was asked. -/
structure Transaction where
  host : Host
  stops : UndoStops
  ops : List Op

namespace Transaction

/-- The transaction was accepted, and it changed the text. -/
def Changes (t : Transaction) : Prop :=
  (t.host.edit t.stops t.ops).1 = .ok true ∧ (t.host.edit t.stops t.ops).2.text ≠ t.host.text

/-- The transaction has one op and joins the open undo group. -/
def Joins (t : Transaction) : Prop :=
  t.stops = .join ∧ ∃ op, t.ops = [op]

end Transaction

namespace Host

/-- A list of `Transaction`s that leads from one host to another, with selections in between. -/
inductive Trace : Host → List Transaction → Host → Prop
  | done (h : Host) : Trace h [] h
  | select {h h' : Host} {log : List Transaction} (s : Selection) :
      Trace (h.select s) log h' → Trace h log h'
  | edit {h h' : Host} {log : List Transaction} (stops : UndoStops) (ops : List Op) :
      Trace (h.edit stops ops).2 log h' → Trace h (⟨h, stops, ops⟩ :: log) h'

theorem Trace.append {h h' h'' : Host} {log log' : List Transaction} (ht : Trace h log h')
    (ht' : Trace h' log' h'') : Trace h (log ++ log') h'' := by
  induction ht with
  | done h => exact ht'
  | select s _ ih => exact .select s (ih ht')
  | edit stops ops _ ih => exact .edit stops ops (ih ht')

/-- The host passes every checkpoint on to its buffer. -/
def PassesCheckpoints (h : Host) : Prop :=
  ∀ g, h.gate = some g → ∀ n, g.verdict n .checkpoint = .pass

/-- A transaction is turned down at the gate, or it reaches the buffer. -/
theorem edit_cases (h : Host) (stops : UndoStops) (ops : List Op) :
    (h.edit stops ops).2 = { h with calls := h.calls + 1 } ∨
      h.edit stops ops = ((h.buffer.edit stops ops).1,
        { h with buffer := (h.buffer.edit stops ops).2, calls := h.calls + 1 }) := by
  simp only [edit]
  split
  · exact .inl rfl
  · exact .inl rfl
  · exact .inr rfl

theorem edit_gate (h : Host) (stops : UndoStops) (ops : List Op) :
    (h.edit stops ops).2.gate = h.gate := by
  rcases h.edit_cases stops ops with he | he <;> rw [he]

theorem Trace.gate {h h' : Host} {log : List Transaction} (ht : Trace h log h') :
    h'.gate = h.gate := by
  induction ht with
  | done h => rfl
  | select s _ ih => exact ih
  | edit stops ops _ ih => rw [ih, edit_gate]

/-- A joining transaction of one op leaves the buffer alone, or it is accepted and changes the
text. -/
theorem edit_join_cases (h : Host) (op : Op) :
    (h.edit .join [op]).2.buffer = h.buffer ∨
      Transaction.Changes ⟨h, .join, [op]⟩ ∧
        (h.edit .join [op]).2.buffer = h.buffer.commit [op] := by
  unfold Transaction.Changes
  rcases h.edit_cases .join [op] with he | he
  · rw [he]
    exact .inl rfl
  · rw [he]
    rcases h.buffer.edit_join_cases op with hb | ⟨hok, hb, htext⟩
    · exact .inl hb
    · refine .inr ⟨⟨hok, ?_⟩, hb⟩
      show (h.buffer.edit .join [op]).2.text ≠ h.buffer.text
      rw [hb]
      exact htext

theorem undoStop_buffer {h : Host} (hg : h.PassesCheckpoints) :
    h.undoStop.2.buffer = { h.buffer with groupOpen := false } := by
  have hpass : h.undoStop = ((h.buffer.edit .checkpoint [.insert 0 []]).1,
      { h with buffer := (h.buffer.edit .checkpoint [.insert 0 []]).2, calls := h.calls + 1 }) := by
    simp only [undoStop, edit]
    rcases hgate : h.gate with _ | g
    · rfl
    · simp only [hg g hgate]
  rw [hpass]
  exact h.buffer.edit_checkpoint

/-! ### Joining transactions -/

/-- While the group is open, a `Trace` of joining transactions does not touch the history. -/
theorem Trace.joins_open {h h' : Host} {log : List Transaction} (ht : Trace h log h')
    (hj : ∀ t ∈ log, t.Joins) (hopen : h.buffer.groupOpen = true) :
    h'.buffer.groupOpen = true ∧ h'.buffer.past = h.buffer.past := by
  induction ht with
  | done h => exact ⟨hopen, rfl⟩
  | select s _ ih => exact ih hj hopen
  | @edit h h' log stops ops _ ih =>
    obtain ⟨rfl, op, rfl⟩ := hj ⟨h, stops, ops⟩ (by simp)
    have hrest : ∀ t ∈ log, t.Joins := fun t ht => hj t (by simp [ht])
    rcases h.edit_join_cases op with hb | ⟨-, hb⟩
    · rw [← hb] at hopen ⊢
      exact ih hrest hopen
    · have hpast : (h.buffer.commit [op]).past = h.buffer.past := if_pos hopen
      rw [← hpast, ← hb]
      exact ih hrest (by rw [hb]; rfl)

/-- From a closed group, a `Trace` of joining transactions leaves text and history alone, or the
first that changes the text records the text before it, and no other does. -/
theorem Trace.joins {h h' : Host} {log : List Transaction} (ht : Trace h log h')
    (hj : ∀ t ∈ log, t.Joins) (hclosed : h.buffer.groupOpen = false) :
    (¬(∃ t ∈ log, t.Changes) ∧ h'.buffer.groupOpen = false ∧ h'.buffer.past = h.buffer.past ∧
        h'.text = h.text) ∨
      ((∃ t ∈ log, t.Changes) ∧ h'.buffer.past = h.text :: h.buffer.past) := by
  induction ht with
  | done h => exact .inl ⟨by simp, hclosed, rfl, rfl⟩
  | select s _ ih => exact ih hj hclosed
  | @edit h h' log stops ops hrun ih =>
    obtain ⟨rfl, op, rfl⟩ := hj ⟨h, stops, ops⟩ (by simp)
    have hrest : ∀ t ∈ log, t.Joins := fun t ht => hj t (by simp [ht])
    rcases h.edit_join_cases op with hb | ⟨hchange, hb⟩
    · -- nothing happened, and the rest of the trace starts from the same buffer
      have htext : (h.edit .join [op]).2.text = h.text := congrArg Buffer.text hb
      have hsame : ¬Transaction.Changes ⟨h, .join, [op]⟩ := fun hc => hc.2 htext
      have hiff : (∃ t ∈ (⟨h, .join, [op]⟩ : Transaction) :: log, t.Changes)
          ↔ ∃ t ∈ log, t.Changes := by
        simp [hsame]
      rw [hiff, ← htext, ← hb]
      exact ih hrest (by rw [hb]; exact hclosed)
    · -- the text before the first change is recorded, and the group stays open from here
      have hpast : (h.buffer.commit [op]).past = h.text :: h.buffer.past :=
        if_neg (by rw [hclosed]; simp)
      have hopen := hrun.joins_open hrest (by rw [hb]; rfl)
      rw [hb, hpast] at hopen
      exact .inr ⟨⟨_, List.mem_cons_self, hchange⟩, hopen.2⟩

/-- The host `h'` is reached from `h` by joining transactions. -/
def JoinsTo (h h' : Host) : Prop :=
  ∃ log, Trace h log h' ∧ ∀ t ∈ log, t.Joins

theorem JoinsTo.refl (h : Host) : JoinsTo h h :=
  ⟨[], .done h, by simp⟩

theorem JoinsTo.trans {h h' h'' : Host} (h₁ : JoinsTo h h') (h₂ : JoinsTo h' h'') :
    JoinsTo h h'' := by
  obtain ⟨log, ht, hj⟩ := h₁
  obtain ⟨log', ht', hj'⟩ := h₂
  refine ⟨log ++ log', ht.append ht', fun t hmem => ?_⟩
  rcases List.mem_append.mp hmem with hmem | hmem
  · exact hj t hmem
  · exact hj' t hmem

theorem JoinsTo.select (h : Host) (s : Selection) : JoinsTo h (h.select s) :=
  ⟨[], .select s (.done _), by simp⟩

theorem JoinsTo.edit (h : Host) (op : Op) : JoinsTo h (h.edit .join [op]).2 :=
  ⟨[⟨h, .join, [op]⟩], .edit .join [op] (.done _), by simp [Transaction.Joins]⟩

/-! ### The steps of an operation -/

theorem applyAll_joinsTo (cs : List Command) (h : Host) : JoinsTo h (h.applyAll cs).2 := by
  induction cs generalizing h with
  | nil => exact .refl h
  | cons c cs ih =>
    have hedit := JoinsTo.edit h c.op
    rw [applyAll]
    split
    · next h' heq =>
      rw [heq] at hedit
      exact hedit.trans (ih h')
    · exact hedit

theorem applyChanges_joinsTo (h : Host) (changes : List Change) :
    JoinsTo h (h.applyChanges changes).2 := by
  unfold applyChanges
  split
  · exact .refl h
  · exact applyAll_joinsTo _ h

theorem settleLines_joinsTo (h : Host) (cs : List Command) (width : Nat) :
    JoinsTo h (h.settleLines cs width).2 := by
  unfold settleLines
  split
  · exact .refl h
  · exact applyChanges_joinsTo h _

theorem cutSpan_joinsTo (h : Host) (c : Clipboard) (a b : Nat) :
    JoinsTo h (c.cutSpan h a b).2.1 := by
  unfold Clipboard.cutSpan
  split
  · exact .refl h
  · next c' _ =>
    have happly := applyAll_joinsTo [.deleteSpan a b] h
    split
    · next heq =>
      rw [heq] at happly
      exact happly
    · next heq =>
      rw [heq] at happly
      exact happly

theorem closeOnFailure_of_ne {ε : Type} {result : Except ε Bool} (hr : result ≠ .ok true)
    (h : Host) : closeOnFailure result h = h.undoStop.2 := by
  unfold closeOnFailure
  split
  · exact absurd rfl hr
  · rfl

/-- Whatever the result, `conclude` makes a checkpoint. -/
theorem conclude_host (result : Except Failure Bool) (h : Host) :
    (conclude result h).2 = h.undoStop.2 := by
  unfold conclude
  split
  · rfl
  · next hne => exact closeOnFailure_of_ne hne h

/-- The host `h'` is reached from `h` by joining transactions and then a checkpoint, or by none. -/
def StepsTo (h h' : Host) : Prop :=
  Trace h [] h' ∨ ∃ m, JoinsTo h m ∧ h' = m.undoStop.2

theorem perform_stepsTo (h : Host) (e : Edit) (skipsIndent : Bool) (width : Nat) :
    StepsTo h (h.perform e skipsIndent width).2 := by
  unfold perform
  split
  · exact .inl (.done h)
  · next cs _ =>
    have happly := applyAll_joinsTo cs h
    split
    · next h₁ heq =>
      rw [heq] at happly
      have hsel : JoinsTo h₁ (h₁.selectDestination (.point e.caret)).2 := .select h₁ _
      have hlines := settleLines_joinsTo (h₁.selectDestination (.point e.caret)).2 cs width
      -- the result of indenting is concluded too, so a failure there also ends the group
      cases skipsIndent with
      | true => exact .inr ⟨_, happly.trans hsel, conclude_host _ _⟩
      | false => exact .inr ⟨_, (happly.trans hsel).trans hlines, conclude_host _ _⟩
    · next result h₁ hne heq =>
      rw [heq] at happly
      refine .inr ⟨h₁, happly, closeOnFailure_of_ne ?_ h₁⟩
      rintro rfl
      exact hne rfl

theorem runEdit_stepsTo (h : Host) (editor : Document → Nat → Edit.Options → Option Edit)
    (skipsIndent : Bool) (width : Nat) : StepsTo h (h.runEdit editor skipsIndent width).2 := by
  simp only [runEdit]
  split
  · exact .inl (.done h)
  · split
    · exact .inl (.select _ (.done _))
    · exact perform_stepsTo h _ _ _

theorem cut_stepsTo (h : Host) (c : Clipboard) (motion : Document → Nat → Destination) :
    StepsTo h (h.cut c motion).2.1 :=
  .inr ⟨_, cutSpan_joinsTo h c _ _, conclude_host _ _⟩

theorem indent_stepsTo (h : Host) (width : Nat) : StepsTo h (h.indent width).2 :=
  .inr ⟨_, applyChanges_joinsTo h _, conclude_host _ _⟩

/-! ### One undo step -/

/-- The transactions `log` lead from one host to another as one undo step: no group is left open;
when some transaction changed the text there is one more step to undo, and undoing it gives the
text from before; when none did, text and depth are as they were. -/
structure OneUndoStep (h h' : Host) (log : List Transaction) : Prop where
  trace : Trace h log h'
  closed : h'.buffer.groupOpen = false
  changed : (∃ t ∈ log, t.Changes) → h'.buffer.undoDepth = h.buffer.undoDepth + 1 ∧
    ∃ b, h'.buffer.undo = (true, b) ∧ b.text = h.text
  unchanged : ¬(∃ t ∈ log, t.Changes) →
    h'.buffer.undoDepth = h.buffer.undoDepth ∧ h'.text = h.text

theorem StepsTo.oneUndoStep {h h' : Host} (hs : StepsTo h h') (hclosed : h.buffer.groupOpen = false)
    (hg : h.PassesCheckpoints) : ∃ log, OneUndoStep h h' log := by
  rcases hs with ht | ⟨m, ⟨log, ht, hj⟩, rfl⟩
  · rcases ht.joins (by simp) hclosed with ⟨-, hopen, hpast, htext⟩ | ⟨⟨t, hmem, -⟩, -⟩
    · refine ⟨[], ht, hopen, by simp, fun _ => ⟨?_, htext⟩⟩
      rw [Buffer.undoDepth, hpast, Buffer.undoDepth]
    · cases hmem
  · have hstop : m.undoStop.2.buffer = { m.buffer with groupOpen := false } :=
      undoStop_buffer fun g hgate => hg g (by rw [← ht.gate, hgate])
    -- the checkpoint is the last transaction, and it changes nothing
    have htrace : Trace h (log ++ [⟨m, .checkpoint, [.insert 0 []]⟩]) m.undoStop.2 :=
      ht.append (.edit .checkpoint [.insert 0 []] (.done _))
    have hlast : ¬Transaction.Changes ⟨m, .checkpoint, [.insert 0 []]⟩ := fun hc => hc.2 <| by
      show m.undoStop.2.buffer.text = m.buffer.text
      rw [hstop]
    have hiff : (∃ t ∈ log ++ [⟨m, .checkpoint, [.insert 0 []]⟩], t.Changes)
        ↔ ∃ t ∈ log, t.Changes := by
      simp only [List.mem_append, List.mem_singleton, or_and_right, exists_or, exists_eq_left,
        hlast, or_false]
    refine ⟨_, htrace, by rw [hstop], ?_, ?_⟩
    · rw [hiff]
      intro hchange
      rcases ht.joins hj hclosed with ⟨hno, -⟩ | ⟨-, hpast⟩
      · exact absurd hchange hno
      · rw [hstop, Buffer.undoDepth, Buffer.undo, hpast]
        exact ⟨rfl, _, rfl, rfl⟩
    · rw [hiff]
      intro hno
      rcases ht.joins hj hclosed with ⟨-, -, hpast, htext⟩ | ⟨hchange, -⟩
      · rw [text, hstop, Buffer.undoDepth, hpast]
        exact ⟨rfl, htext⟩
      · exact absurd hchange hno

end Host

theorem Session.run_stepsTo (s : Session) (op : Operation) (h : Host) (c : Clipboard) :
    h.StepsTo (s.run op h c).2.2.1 := by
  unfold run
  split
  · exact .inl (.done h)
  · cases op with
    | navigate m => exact .inl (.select _ (.done _))
    | yank m =>
      dsimp only
      split <;> exact .inl (.done h)
    | cut m => exact h.cut_stepsTo c fun d offset => m.target d offset
    | expand => exact .inl (.select _ (.done _))
    | contract =>
      show h.StepsTo (s.expansion.contract h).2.2
      unfold Expansion.contract
      split
      · split
        · exact .inl (.select _ (.done _))
        · exact .inl (.done h)
      · exact .inl (.done h)
    | edit e => exact h.runEdit_stepsTo _ _ _
    | indent => exact h.indent_stepsTo _

/-! ### Runs of operations -/

/-- A session with the host and the clipboard it runs operations against. -/
structure Workbench where
  session : Session
  host : Host
  clipboard : Clipboard

namespace Workbench

/-- What can happen between two looks at a workbench. -/
inductive Action where
  /-- An operation is run. -/
  | run (op : Operation)
  /-- The document becomes read-only, or is that no longer. -/
  | setReadOnly (readOnly : Bool)
  /-- The clipboard starts to fail, or works again. -/
  | setFault (fault : Option ClipboardError)
  /-- The user selects something. -/
  | select (s : Selection)

/-- Runs an operation, and keeps what it leaves. -/
def run (w : Workbench) (op : Operation) : Workbench :=
  let (_, session, host, clipboard) := w.session.run op w.host w.clipboard
  ⟨session, host, clipboard⟩

/-- The workbench after an action. -/
def act (w : Workbench) : Action → Workbench
  | .run op => w.run op
  | .setReadOnly readOnly =>
    { w with host := { w.host with buffer := { w.host.buffer with readOnly } } }
  | .setFault fault => { w with clipboard := { w.clipboard with fault } }
  | .select s => { w with host := w.host.select s }

/-- No undo group is open, and the host passes checkpoints on. -/
def Ready (w : Workbench) : Prop :=
  w.host.buffer.groupOpen = false ∧ w.host.PassesCheckpoints

theorem Ready.run {w : Workbench} (hw : w.Ready) (op : Operation) :
    ∃ log, w.host.OneUndoStep (w.run op).host log :=
  (w.session.run_stepsTo op w.host w.clipboard).oneUndoStep hw.1 hw.2

theorem Ready.act {w : Workbench} (hw : w.Ready) (a : Action) : (w.act a).Ready := by
  cases a with
  | run op =>
    obtain ⟨log, hstep⟩ := hw.run op
    refine ⟨hstep.closed, fun g hgate => hw.2 g ?_⟩
    rw [← hgate, ← hstep.trace.gate]
    rfl
  | setReadOnly readOnly => exact hw
  | setFault fault => exact hw
  | select s => exact hw

theorem Ready.foldl_act {w : Workbench} (hw : w.Ready) (actions : List Action) :
    (actions.foldl Workbench.act w).Ready := by
  induction actions generalizing w with
  | nil => exact hw
  | cons a actions ih => exact ih (hw.act a)

/-- **Every operation is one undo step.**  However a run of operations went, and whatever joining
transactions the host turned down, the next operation makes one undo step of what it changed. -/
theorem each_run_is_one_undo_step {w : Workbench} (hclosed : w.host.buffer.groupOpen = false)
    (hg : w.host.PassesCheckpoints) (actions : List Action) (op : Operation) :
    ∃ log, (actions.foldl act w).host.OneUndoStep ((actions.foldl act w).run op).host log :=
  (Ready.foldl_act ⟨hclosed, hg⟩ actions).run op

/-- A host that rejects the second transaction and declines every third, unless they are
checkpoints.  The slurp before is stopped half-way, and the cut is made. -/
theorem each_run_is_one_undo_step_picky :
    let gate : Gate := ⟨fun n stops =>
      if stops = .checkpoint then .pass
      else if n = 2 then .reject "busy"
      else if n % 3 = 0 then .decline
      else .pass⟩
    let host : Host := { buffer := .ofText "clojure" "(a b) c d".toList, gate := some gate }
    let w : Workbench := ⟨{}, host.select (.caret 1), {}⟩
    let actions : List Action :=
      [.run (.edit (.slurp false)), .setReadOnly true, .setReadOnly false]
    w.host.buffer.groupOpen = false ∧ w.host.PassesCheckpoints ∧
      ((actions.foldl act w).run (.cut .forward)).host.text ≠ (actions.foldl act w).host.text ∧
      ∃ log, (actions.foldl act w).host.OneUndoStep
        ((actions.foldl act w).run (.cut .forward)).host log := by
  intro gate host w actions
  have hg : w.host.PassesCheckpoints := by
    intro g hgate n
    obtain rfl := Option.some.inj hgate
    rfl
  exact ⟨rfl, hg, by decide +kernel, each_run_is_one_undo_step rfl hg actions (.cut .forward)⟩

end Workbench

end SexpEdit
