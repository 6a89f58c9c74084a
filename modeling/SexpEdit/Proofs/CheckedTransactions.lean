/-
Checked transactions.

A buffer carries its selection along as signed numbers, and a deletion is given by where it starts
and how long it is.  Those are the sums that may leave a word.  A transaction on words is refused as
`Buffer.edit` refuses it, and one that fits is made as there, unless the anchor or the cursor is so
large that it cannot be moved; then it may break off.

Where a selection is too large it may also be carried to a wrong place.  The selection is the only
part of a host that can be wrong then: hosts `Host.Agrees` if they are the same but for it.

* `Checked.carry_gives` — an offset is carried as `Op.carry` says if it can be moved so far;
* `Checked.editBuffer_gives`, `Checked.applyAll_gives` — transactions and runs of commands;
* `Checked.undoStop_eq`, `Checked.conclude_eq` — what ends an undo group carries nothing;
* `Checked.transaction_makes_ops_in_turn` — what a transaction on words does to a writable buffer.
-/
import SexpEdit.Checked.Session
import SexpEdit.Proofs.Checked
import SexpEdit.Proofs.Transactions
import SexpEdit.Proofs.UndoStep

namespace SexpEdit

/-! ### Carrying an offset along -/

/-- How many characters ops put in. -/
def Op.grown : List Op → Nat
  | [] => 0
  | op :: ops => op.inserted.length + grown ops

/-- How many characters commands put in. -/
def Command.grown (commands : List Command) : Nat :=
  Op.grown (commands.map Command.op)

/-- The anchor and the cursor of `s` can be moved `n` characters on as signed numbers. -/
def Selection.Movable (s : Selection) (n : Nat) : Prop :=
  s.anchor + n ≤ maxSigned ∧ s.cursor + n ≤ maxSigned

theorem Selection.Movable.mono {s : Selection} {m n : Nat} (h : s.Movable n) (hle : m ≤ n) :
    s.Movable m :=
  ⟨(Nat.add_le_add_left hle _).trans h.1, (Nat.add_le_add_left hle _).trans h.2⟩

namespace Op

theorem grown_of_perm {ops ops' : List Op} (h : ops.Perm ops') : grown ops = grown ops' := by
  induction h with
  | nil => rfl
  | cons op _ ih => rw [grown, grown, ih]
  | swap op op' ops =>
    simp only [grown]
    omega
  | trans _ _ ih ih' => rw [ih, ih']

theorem grown_arrange (ops : List Op) : grown (arrange ops) = grown ops :=
  grown_of_perm (arrange_perm ops)

theorem shift_le (offset : Nat) (op : Op) : shift offset op ≤ op.inserted.length := by
  cases op with
  | insert s cs =>
    simp only [shift, inserted]
    split <;> omega
  | delete s e =>
    simp only [shift, inserted, List.length_nil]
    split
    · omega
    · split <;> omega

/-- An offset moves by no more than what is put in, the `grown` of the ops. -/
theorem carry_le_grown (ops : List Op) (offset : Nat) : carry ops offset ≤ offset + grown ops := by
  have hshift : totalShift offset ops ≤ grown ops := by
    induction ops with
    | nil => exact Int.le_refl _
    | cons op ops ih =>
      have hop := shift_le offset op
      rw [totalShift, grown]
      omega
  rw [carry]
  omega

end Op

namespace Checked

variable {room : Prop} {offset length last : Nat} {ops : List Op} {op : Op}

theorem exists_shift_eq (h : op.start ≤ op.stop) (offset : Nat) :
    ∃ z, shift offset op = pure z := by
  cases op with
  | insert s cs => exact ⟨_, rfl⟩
  | delete s e =>
    have hle : s ≤ e := h
    by_cases he : e ≤ offset
    · exact ⟨_, by rw [shift, if_pos he, minus_eq hle, pure_bind]⟩
    · rw [shift, if_neg he]
      by_cases hs : s < offset
      · exact ⟨_, by rw [if_pos hs, minus_eq hs.le, pure_bind]⟩
      · exact ⟨_, by rw [if_neg hs]⟩

theorem shift_eq (h : op.start ≤ op.stop) (ho : offset ≤ maxSigned)
    (hop : op.inserted.length ≤ maxSigned) : shift offset op = pure (Op.shift offset op) := by
  cases op with
  | insert s cs =>
    change cs.length ≤ maxSigned at hop
    rw [shift, Op.shift, signed_eq hop]
  | delete s e =>
    have hle : s ≤ e := h
    rw [shift, Op.shift]
    split
    · next he =>
      rw [minus_eq hle, pure_bind, signed_eq (by omega)]
    · split
      · next hs =>
        rw [minus_eq hs.le, pure_bind, signed_eq (by omega)]
      · rfl

/-- Ops that passed the `check` carry an offset without a fault if it can be moved by all that they
put in. What they leave of it is never below what is left of it behind the ops so far. -/
theorem carryFrom_eq (ho : offset ≤ maxSigned) : ∀ {ops : List Op} {last : Nat} {moved : Int},
    Op.check length last ops = .ok () → ((offset - min last offset : Nat) : Int) ≤ moved →
    moved + Op.grown ops ≤ maxSigned →
    carryFrom offset moved ops = pure (moved + Op.totalShift offset ops).toNat := by
  intro ops
  induction ops with
  | nil =>
    intro last moved _ _ _
    rw [carryFrom, Op.totalShift, Int.add_zero]
  | cons op ops ih =>
    intro last moved hcheck hlow hhigh
    obtain ⟨hle, -, hlast, hrest⟩ := Op.check_cons hcheck
    rw [Op.grown] at hhigh
    have hshift := Op.shift_le offset op
    have hleft : ((offset - min op.stop offset : Nat) : Int) ≤ moved + Op.shift offset op := by
      cases op with
      | insert s cs =>
        simp only [Op.start, Op.stop, Op.shift] at *
        split <;> omega
      | delete s e =>
        simp only [Op.start, Op.stop, Op.shift] at *
        split
        · omega
        · split <;> omega
    have hsum : signedPlus moved (Op.shift offset op) = pure (moved + Op.shift offset op) :=
      if_pos ⟨by omega, by omega⟩
    rw [carryFrom, shift_eq hle ho (by omega), pure_bind, hsum, pure_bind,
      ih hrest hleft (by omega), Op.totalShift, Int.add_assoc]

/-- Without `room` an offset is carried somewhere, or a sum is too large. -/
theorem carryFrom_of_not (h : ¬room) (offset : Nat) : ∀ {ops : List Op} {last : Nat} (moved : Int)
    (place : Nat), Op.check length last ops = .ok () →
    Gives room (carryFrom offset moved ops) (fun _ => True) place := by
  intro ops
  induction ops with
  | nil =>
    intro last moved place _
    exact .value _ rfl trivial fun hroom => absurd hroom h
  | cons op ops ih =>
    intro last moved place hcheck
    obtain ⟨hle, -, -, hrest⟩ := Op.check_cons hcheck
    obtain ⟨z, hz⟩ := exists_shift_eq hle offset
    rw [carryFrom, hz, pure_bind]
    exact (signedPlus_of_not h moved z 0).bind fun moved _ _ => ih moved place hrest

theorem carry_gives (hcheck : Op.check length 0 ops = .ok ()) (offset : Nat)
    (h : room → offset + Op.grown ops ≤ maxSigned) :
    Gives room (carry ops offset) (fun _ => True) (Op.carry ops offset) := by
  by_cases hroom : room
  · have hfits := h hroom
    have ho : offset ≤ maxSigned := by omega
    have heq := carryFrom_eq ho hcheck (show _ ≤ (offset : Int) by omega) (by omega)
    refine .of_eq ?_ trivial
    rw [carry, signed_eq ho, heq]
    rfl
  · exact carryFrom_of_not hroom offset _ _ hcheck

theorem rewrite_eq {cs : List Char} (h : Op.check cs.length 0 ops = .ok ()) :
    rewrite ops cs = pure (Op.apply ops cs) := by
  rw [rewrite, Op.rewrite?_eq h]

end Checked

/-! ### Hosts that differ in the selection -/

/-- `b` is `b'` with another selection, or with the same. -/
def Buffer.Agrees (b b' : Buffer) : Prop :=
  ∃ s, b = { b' with selection := s }

/-- `h` is `h'` with another selection, or with the same. -/
def Host.Agrees (h h' : Host) : Prop :=
  ∃ s, h = { h' with buffer := { h'.buffer with selection := s } }

/-- Results are the same, and their hosts agree by `Host.Agrees`. -/
def Host.ResultsAgree {ρ : Type} (r r' : ρ × Host) : Prop :=
  r.1 = r'.1 ∧ r.2.Agrees r'.2

namespace Buffer

variable {b b' : Buffer}

theorem Agrees.refl (b : Buffer) : b.Agrees b :=
  ⟨b.selection, rfl⟩

theorem Agrees.stopGroup (h : b.Agrees b') (stop : Bool) :
    (b.stopGroup stop).Agrees (b'.stopGroup stop) := by
  obtain ⟨s, rfl⟩ := h
  cases stop <;> exact ⟨s, rfl⟩

/-- Buffers that agree by `Buffer.Agrees`, so that they may differ in the selection, agree after a
transaction too. -/
theorem Agrees.edit (h : b.Agrees b') (stops : UndoStops) (ops : List Op) :
    (b.edit stops ops).1 = (b'.edit stops ops).1 ∧
      (b.edit stops ops).2.Agrees (b'.edit stops ops).2 := by
  have hstopped := h.stopGroup stops.before
  obtain ⟨s, hs⟩ := hstopped
  have hro : b.readOnly = b'.readOnly := by
    obtain ⟨s, rfl⟩ := h
    rfl
  unfold Buffer.edit
  rw [hro]
  split
  · exact ⟨rfl, h.stopGroup _⟩
  · dsimp only
    rw [hs]
    show _ ∧ _
    have hlength : ({ b'.stopGroup stops.before with selection := s } : Buffer).length =
        (b'.stopGroup stops.before).length := rfl
    rw [hlength]
    split
    · exact ⟨rfl, s, rfl⟩
    · refine ⟨rfl, Agrees.stopGroup ?_ _⟩
      split
      · exact ⟨s, rfl⟩
      · exact ⟨_, rfl⟩

end Buffer

namespace Host

variable {h h' : Host}

theorem Agrees.refl (h : Host) : h.Agrees h :=
  ⟨h.buffer.selection, rfl⟩

theorem Agrees.trans {h'' : Host} (h₁ : h.Agrees h') (h₂ : h'.Agrees h'') : h.Agrees h'' := by
  obtain ⟨s, rfl⟩ := h₁
  obtain ⟨s', rfl⟩ := h₂
  exact ⟨s, rfl⟩

theorem Agrees.text (ha : h.Agrees h') : h.text = h'.text := by
  obtain ⟨s, rfl⟩ := ha
  rfl

theorem Agrees.isOpen (ha : h.Agrees h') (hopen : h'.Open) : h.Open := by
  obtain ⟨s, rfl⟩ := ha
  exact hopen

/-- Hosts that agree by `Host.Agrees` are the same once a selection is made. -/
theorem Agrees.select (ha : h.Agrees h') (s : Selection) : h.select s = h'.select s := by
  obtain ⟨t, rfl⟩ := ha
  rfl

theorem ResultsAgree.refl {ρ : Type} (r : ρ × Host) : ResultsAgree r r :=
  ⟨rfl, .refl _⟩

theorem Agrees.edit (ha : h.Agrees h') (stops : UndoStops) (ops : List Op) :
    ResultsAgree (h.edit stops ops) (h'.edit stops ops) := by
  obtain ⟨s, rfl⟩ := ha
  have hbuffer : ({ h'.buffer with selection := s } : Buffer).Agrees h'.buffer := ⟨s, rfl⟩
  obtain ⟨hresult, t, hedit⟩ := hbuffer.edit stops ops
  unfold Host.edit
  dsimp only
  split
  · exact ⟨rfl, s, rfl⟩
  · exact ⟨rfl, s, rfl⟩
  · exact ⟨hresult, t, by rw [hedit]⟩

theorem Agrees.applyAll (commands : List Command) : ∀ {h h' : Host}, h.Agrees h' →
    ResultsAgree (h.applyAll commands) (h'.applyAll commands) := by
  induction commands with
  | nil =>
    intro h h' ha
    exact ⟨rfl, ha⟩
  | cons c commands ih =>
    intro h h' ha
    obtain ⟨hresult, hrest⟩ := ha.edit .join [c.op]
    rw [Host.applyAll, Host.applyAll]
    rcases hedit : h.edit .join [c.op] with ⟨result, made⟩
    rcases hedit' : h'.edit .join [c.op] with ⟨result', made'⟩
    rw [hedit, hedit'] at hresult hrest
    obtain rfl : result = result' := hresult
    split
    · next heq =>
      cases heq
      exact ih hrest
    · next hne =>
      split
      · next heq =>
        cases heq
        exact absurd rfl (hne _)
      · exact ⟨rfl, hrest⟩

/-- What ends a step, `Host.conclude`, does not depend on the selection. -/
theorem ResultsAgree.conclude {r r' : Except Failure Bool × Host} (hr : ResultsAgree r r') :
    ResultsAgree (Host.conclude r.1 r.2) (Host.conclude r'.1 r'.2) := by
  obtain ⟨result, h⟩ := r
  obtain ⟨result', h'⟩ := r'
  obtain ⟨rfl, ha⟩ : result = result' ∧ h.Agrees h' := hr
  obtain ⟨hstopped, hhost⟩ : ResultsAgree h.undoStop h'.undoStop := ha.edit _ _
  refine ⟨?_, by rw [conclude_host, conclude_host]; exact hhost⟩
  rcases result with e | ⟨_ | _⟩
  · rfl
  · rfl
  · exact congrArg liftEdit hstopped

end Host

/-! ### Transactions and runs of commands -/

/-- A transaction moves the ends of a selection by no more than its `Op.grown`. -/
theorem Selection.Movable.edit {b : Buffer} {ops : List Op} {n : Nat}
    (h : b.selection.Movable (Op.grown ops + n)) (stops : UndoStops) :
    (b.edit stops ops).2.selection.Movable n := by
  rcases b.edit_cases stops ops with ⟨stop, heq⟩ | ⟨-, before, after, heq⟩
  · rw [heq, Buffer.selection_stopGroup]
    exact h.mono (Nat.le_add_left _ _)
  · have ha := Op.carry_le_grown (Op.arrange ops) b.selection.anchor
    have hc := Op.carry_le_grown (Op.arrange ops) b.selection.cursor
    rw [Op.grown_arrange] at ha hc
    rw [heq, Buffer.selection_stopGroup]
    show (Selection.between _ _).anchor + n ≤ _ ∧ Op.carry _ _ + n ≤ _
    rw [Selection.anchor_between, Buffer.selection_stopGroup]
    obtain ⟨hanchor, hcursor⟩ := h
    omega

theorem Selection.Movable.editHost {h : Host} {ops : List Op} {n : Nat}
    (hmove : h.buffer.selection.Movable (Op.grown ops + n)) (stops : UndoStops) :
    (h.edit stops ops).2.buffer.selection.Movable n := by
  rcases h.edit_cases stops ops with heq | heq
  · rw [heq]
    exact hmove.mono (Nat.le_add_left _ _)
  · rw [heq]
    exact hmove.edit stops

theorem Command.grown_cons (c : Command) (commands : List Command) :
    grown (c :: commands) = Op.grown [c.op] + grown commands := by
  rw [grown, List.map_cons, Op.grown, Op.grown]
  rfl

namespace Checked

variable {room : Prop} {b : Buffer} {h : Host} {ops : List Op}

theorem commit_gives (hcheck : Op.check b.length 0 ops = .ok ())
    (hmove : room → b.selection.Movable (Op.grown ops)) :
    Gives room (commit b ops) (·.Agrees (b.commit ops)) (b.commit ops) := by
  have hanchor := carry_gives hcheck b.selection.anchor fun hroom => (hmove hroom).1
  have hcursor := carry_gives hcheck b.selection.cursor fun hroom => (hmove hroom).2
  have hcommit : b.commit ops = b.renew (Op.apply ops b.text)
      (.between (Op.carry ops b.selection.anchor) (Op.carry ops b.selection.cursor)) := by
    rw [Buffer.commit, Op.rewrite?_eq hcheck, Option.getD_some]
  rw [commit, rewrite_eq hcheck, pure_bind, hcommit]
  refine hanchor.bind fun anchor _ ha => hcursor.bind fun cursor _ hc => ?_
  refine .value _ rfl ⟨_, rfl⟩ fun hroom => ?_
  rw [ha hroom, hc hroom]

/-- **A transaction on words.**  It is refused, declined or made as `Buffer.edit` does it, and makes
the same text, if it does not break off. -/
theorem editBuffer_gives (b : Buffer) (stops : UndoStops) {given : Checked (List Op)}
    (hops : Gives room given (· = ops) ops)
    (hmove : room → b.selection.Movable (Op.grown ops)) :
    Gives room (editBuffer b stops given)
      (fun r => r.1 = (b.edit stops ops).1 ∧ r.2.Agrees (b.edit stops ops).2)
      (b.edit stops ops) := by
  unfold editBuffer Buffer.edit
  split
  · exact .of_eq rfl ⟨rfl, .refl _⟩
  · refine hops.bind fun given hgiven _ => ?_
    rw [hgiven]
    dsimp only
    rw [← b.selection_stopGroup stops.before] at hmove
    generalize b.stopGroup stops.before = b at hmove
    cases hcheck : Op.check b.length 0 (Op.arrange ops) with
    | error e => exact .of_eq rfl ⟨rfl, .refl _⟩
    | ok _ =>
      dsimp only
      by_cases hidle : (Op.arrange ops).all Op.isNoop
      · rw [if_pos hidle, if_pos hidle]
        exact .of_eq rfl ⟨rfl, .refl _⟩
      · rw [if_neg hidle, if_neg hidle]
        have hmove' : room → b.selection.Movable (Op.grown (Op.arrange ops)) := by
          rw [Op.grown_arrange]
          exact hmove
        refine (commit_gives hcheck hmove').bind fun made hmade heq => ?_
        refine .value _ rfl ⟨rfl, hmade.stopGroup _⟩ fun hroom => ?_
        rw [heq hroom]

theorem editHost_gives (h : Host) (stops : UndoStops) {given : Checked (List Op)}
    (hops : Gives room given (· = ops) ops)
    (hmove : room → h.buffer.selection.Movable (Op.grown ops)) :
    Gives room (editHost h stops given) (Host.ResultsAgree · (h.edit stops ops))
      (h.edit stops ops) := by
  obtain ⟨buffer, gate, calls⟩ := h
  have hpass : Gives room
      (do return ((← editBuffer buffer stops given).map id fun b => ⟨b, gate, calls + 1⟩))
      (Host.ResultsAgree · ((buffer.edit stops ops).map id fun b => ⟨b, gate, calls + 1⟩))
      ((buffer.edit stops ops).map id fun b => ⟨b, gate, calls + 1⟩) := by
    refine (editBuffer_gives buffer stops hops hmove).bind fun r hr heq => ?_
    obtain ⟨hresult, s, hs⟩ := hr
    refine .value _ rfl ⟨hresult, s, ?_⟩ fun hroom => by rw [heq hroom]
    show Host.mk r.2 gate (calls + 1) = _
    rw [hs]
    rfl
  cases gate with
  | none => exact hpass
  | some g =>
    unfold editHost Host.edit
    dsimp only
    cases g.verdict (calls + 1) stops with
    | pass => exact hpass
    | reject reason => exact .of_eq rfl (.refl _)
    | decline => exact .of_eq rfl (.refl _)

theorem op_gives (c : Command) (hstop : room → c.op.stop ≤ maxWord) :
    Gives room (op c) (· = c.op) c.op := by
  cases c with
  | insert s cs => exact .of_eq rfl rfl
  | delete s n =>
    refine (plus_gives hstop).bind ?_
    rintro _ rfl -
    exact .of_eq rfl rfl

/-- **A run of commands on words** gives what `Host.applyAll` does, where there is room. -/
theorem applyAll_gives (commands : List Command) : ∀ (h : Host),
    (room → ∀ c ∈ commands, c.op.stop ≤ maxWord) →
    (room → h.buffer.selection.Movable (Command.grown commands)) →
    Gives room (applyAll h commands) (Host.ResultsAgree · (h.applyAll commands))
      (h.applyAll commands) := by
  induction commands with
  | nil =>
    intro h _ _
    exact .of_eq rfl (.refl _)
  | cons c commands ih =>
    intro h hstop hmove
    rw [Command.grown_cons] at hmove
    have hc : Gives room (do return [← op c]) (· = [c.op]) [c.op] := by
      refine (op_gives c fun hroom => hstop hroom c List.mem_cons_self).bind ?_
      rintro _ rfl -
      exact .of_eq rfl rfl
    have hfirst := editHost_gives h .join hc fun hroom =>
      (hmove hroom).mono (Nat.le_add_right _ _)
    have hmoved : room → (h.edit .join [c.op]).2.buffer.selection.Movable
        (Command.grown commands) := fun hroom => (hmove hroom).editHost .join
    rw [applyAll, Host.applyAll]
    refine hfirst.bind fun r hr heq => ?_
    obtain ⟨result, made⟩ := r
    generalize h.edit .join [c.op] = ideal at hr heq hmoved
    obtain ⟨result', made'⟩ := ideal
    obtain ⟨rfl, hagrees⟩ : result = result' ∧ made.Agrees made' := hr
    have hsame : room → made = made' := fun hroom => (Prod.mk.inj (heq hroom)).2
    have hstopped : Gives room (pure (result, made) : Checked _)
        (Host.ResultsAgree · (result, made')) (result, made') :=
      .value _ rfl ⟨rfl, hagrees⟩ heq
    rcases result with e | ⟨_ | _⟩
    · exact hstopped
    · exact hstopped
    · have hrest := ih made (fun hroom c hc => hstop hroom c (List.mem_cons_of_mem _ hc))
        fun hroom => hsame hroom ▸ hmoved hroom
      refine hrest.weaken id (fun r hr => ?_) fun hroom => by rw [hsame hroom]
      obtain ⟨hresult, hhost⟩ := hagrees.applyAll commands
      exact ⟨hr.1.trans hresult, hr.2.trans hhost⟩

/-! ### The end of an undo group -/

/-- An empty transaction carries nothing, however large the selection, so `undoStop` has no
fault. -/
theorem undoStop_eq (h : Host) : undoStop h = pure h.undoStop := by
  have hbuffer : ∀ b : Buffer, editBuffer b .checkpoint (pure [.insert 0 []]) =
      pure (b.edit .checkpoint [.insert 0 []]) := by
    intro b
    unfold editBuffer Buffer.edit
    split
    · rfl
    · simp [Op.arrange, Op.place, Op.check, Op.start, Op.stop, Op.isNoop]
  obtain ⟨buffer, gate, calls⟩ := h
  unfold undoStop Host.undoStop editHost Host.edit
  cases gate with
  | none =>
    dsimp only
    rw [hbuffer]
    rfl
  | some g =>
    dsimp only
    cases g.verdict (calls + 1) .checkpoint with
    | pass =>
      dsimp only
      rw [hbuffer]
      rfl
    | reject reason => rfl
    | decline => rfl

theorem closeOnFailure_eq {ε : Type} (result : Except ε Bool) (h : Host) :
    closeOnFailure result h = pure (Host.closeOnFailure result h) := by
  have hstop : (do return (← undoStop h).2) = (pure h.undoStop.2 : Checked Host) := by
    rw [undoStop_eq, pure_bind]
  rcases result with e | ⟨_ | _⟩
  · exact hstop
  · exact hstop
  · rfl

theorem conclude_eq (result : Except Failure Bool) (h : Host) :
    conclude result h = pure (Host.conclude result h) := by
  have hclose : (do return (result, ← closeOnFailure result h)) =
      (pure (result, Host.closeOnFailure result h) : Checked _) := by
    rw [closeOnFailure_eq, pure_bind]
  rcases result with e | ⟨_ | _⟩
  · exact hclose
  · exact hclose
  · rw [conclude, undoStop_eq]
    rfl

/-! ### What a transaction on words means -/

/-- A transaction that is refused is refused on words too, with nothing carried. -/
theorem editBuffer_of_error {e : EditError} (hro : b.readOnly = false) (stops : UndoStops)
    (hcheck : Op.check b.length 0 (Op.arrange ops) = .error e) :
    editBuffer b stops (pure ops) = pure (.error e, b.stopGroup stops.before) := by
  have hstopped : Op.check (b.stopGroup stops.before).length 0 (Op.arrange ops) = .error e := by
    rw [Buffer.length, Buffer.text_stopGroup]
    exact hcheck
  rw [editBuffer, if_neg (by rw [hro]; exact Bool.false_ne_true), pure_bind]
  dsimp only
  rw [hstopped]

/-- **A transaction makes its ops in turn.**  Its ops have one stable order.  If some op in that order
does not fit, the transaction is refused, and nothing of the buffer has changed but that its undo
group may have ended.  Otherwise it is made by one `Delta`, and the new text is what the ops make of
the old one, one at a time from the last to the first: at every offset what was put in there, as it
was recorded, and then the old character, if no op deletes it.  Only if the anchor or the cursor
cannot be moved by what is put in may it break off instead, because a number is too large. -/
theorem transaction_makes_ops_in_turn (hro : b.readOnly = false) (stops : UndoStops)
    (ops : List Op) :
    ∃ sorted, (∀ other, Op.Arranged ops other ↔ other = sorted) ∧
      (Op.Misfits b.length 0 sorted → ∃ e groupOpen,
        editBuffer b stops (pure ops) = pure (.error e, { b with groupOpen })) ∧
      (¬Op.Misfits b.length 0 sorted →
        (∃ b', editBuffer b stops (pure ops) = pure (.ok true, b') ∧
          b'.text = sorted.foldr Op.revise b.text ∧
          b'.text = (Op.layout b.text ops).map Prod.fst) ∨
        ¬b.selection.Movable (Op.grown ops) ∧
          ∃ f, editBuffer b stops (pure ops) = throw f ∧ f.isSize) := by
  refine ⟨Op.arrange ops, fun _ => Op.arranged_iff, ?_⟩
  rw [← Op.check_eq_error_iff]
  cases hcheck : Op.check b.length 0 (Op.arrange ops) with
  | error e =>
    refine ⟨fun _ => ⟨e, (b.stopGroup stops.before).groupOpen, ?_⟩, fun h => (h ⟨e, rfl⟩).elim⟩
    rw [editBuffer_of_error hro stops hcheck]
    cases stops.before <;> rfl
  | ok _ =>
    have hfits : ¬∃ e, (Except.ok () : Except EditError Unit) = .error e := by
      rintro ⟨e, he⟩
      cases he
    refine ⟨fun h => absurd h hfits, fun _ => ?_⟩
    obtain ⟨hok, htext, hlayout⟩ := Buffer.edit_makes_ops hro stops hcheck
    have hgives : Gives (b.selection.Movable (Op.grown ops)) (editBuffer b stops (pure ops)) _ _ :=
      editBuffer_gives b stops (.of_eq rfl rfl) id
    cases hgives with
    | value r h hr _ =>
      obtain ⟨result, made⟩ := r
      obtain ⟨rfl, s, hmade⟩ : result = _ ∧ made.Agrees _ := hr
      have hsame : made.text = (b.edit stops ops).2.text := by rw [hmade]
      exact .inl ⟨made, by rw [h, hok], hsame.trans htext, hsame.trans hlayout⟩
    | outgrown f h hsize hroom => exact .inr ⟨hroom, f, h, hsize⟩

/-- Insertions at the start and at the end of a deletion, recorded out of order, around characters of
more than one byte; and an op that starts inside a deletion. -/
theorem transaction_makes_ops_in_turn_touching :
    let b := Buffer.ofText "clojure" ['λ', 'b', 'é', 'd']
    let ops : List Op := [.delete 1 3, .insert 3 ['x'], .insert 1 ['€'], .insert 1 ['y', 'z']]
    let overlapping : List Op := [.insert 2 ['x'], .delete 1 3]
    b.readOnly = false ∧
      (∃ b', editBuffer b .join (pure ops) = pure (.ok true, b') ∧
        b'.text = ['λ', '€', 'y', 'z', 'x', 'd'] ∧
        b'.text = (Op.layout b.text ops).map Prod.fst) ∧
      ∃ e groupOpen,
        editBuffer b .checkpoint (pure overlapping) = pure (.error e, { b with groupOpen }) := by
  intro b ops overlapping
  have hro : b.readOnly = false := rfl
  obtain ⟨sorted, hsorted, -, hmade⟩ := transaction_makes_ops_in_turn hro .join ops
  obtain rfl := (hsorted (Op.arrange ops)).mp (Op.arranged_arrange ops)
  obtain ⟨sorted', hsorted', hrefused, -⟩ :=
    transaction_makes_ops_in_turn hro .checkpoint overlapping
  obtain rfl := (hsorted' (Op.arrange overlapping)).mp (Op.arranged_arrange overlapping)
  have hfits : ¬Op.Misfits b.length 0 (Op.arrange ops) := by
    rw [← Op.check_eq_error_iff]
    rintro ⟨e, he⟩
    cases he
  have hmisfits : Op.Misfits b.length 0 (Op.arrange overlapping) :=
    Op.check_eq_error_iff.mp ⟨_, rfl⟩
  have hmovable : b.selection.Movable (Op.grown ops) := by
    refine ⟨?_, ?_⟩ <;> decide
  rcases hmade hfits with ⟨b', hedit, -, hlayout⟩ | ⟨hstuck, -⟩
  · exact ⟨hro, ⟨b', hedit, hlayout, hlayout⟩, hrefused hmisfits⟩
  · exact absurd hmovable hstuck

/-- A caret at the largest signed number cannot be moved: the transaction fits the text and is not
made. -/
theorem transaction_outgrows_selection :
    let b := { Buffer.ofText "clojure" [] with selection := .caret maxSigned }
    let ops : List Op := [.insert 0 ['x']]
    b.readOnly = false ∧ Op.Arranged ops ops ∧ ¬Op.Misfits b.length 0 ops ∧
      editBuffer b .join (pure ops) = throw (.signedOverflow maxSigned 1) := by
  intro b ops
  refine ⟨rfl, Op.arranged_arrange ops, ?_, by decide +kernel⟩
  rw [← Op.check_eq_error_iff]
  rintro ⟨e, he⟩
  cases he

end Checked

end SexpEdit
