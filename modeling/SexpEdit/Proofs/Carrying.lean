/-
Transactions carry the selection along.

An offset is moved by everything that a transaction puts in or takes out before it.  The ops of a
transaction are in order and do not overlap, so offsets keep their order, and the end of the text is
moved to the end of the new text: an offset in the text is carried into the new text.  So a
transaction keeps the selection of a buffer in its text, whether it is made, refused or declined.

* `Op.carry_le` — an offset in the text is carried into the text that the ops make, and one past
  its end stays as far past it (`Op.carry_le_add`);
* `Buffer.InText.edit` — a transaction keeps the selection in the text;
* `Host.Trace.readOnly` — no transaction changes whether a buffer is read-only, and those that a
  read-only buffer is asked for leave its text (`Host.Trace.text_of_readOnly`).
-/
import SexpEdit.Proofs.Deltas
import SexpEdit.Proofs.History
import SexpEdit.Proofs.Widening

namespace SexpEdit

/-! ### Offsets -/

namespace Op

/-- Ops that passed the `check` move no offset below zero: what they take away before it is
there. -/
theorem totalShift_nonneg {length offset : Nat} : ∀ {ops : List Op} {last : Nat},
    check length last ops = .ok () →
      0 ≤ (offset : Int) - min last offset + totalShift offset ops
  | [], last, _ => by
    rw [totalShift]
    omega
  | op :: ops, last, h => by
    obtain ⟨hle, -, hlast, hops⟩ := check_cons h
    have hrest := @totalShift_nonneg length offset ops _ hops
    rw [totalShift]
    cases op with
    | insert s cs =>
      rw [stop] at hrest
      rw [start] at hlast
      rw [shift]
      split <;> omega
    | delete s e =>
      rw [stop] at hrest hle
      rw [start] at hlast hle
      rw [shift]
      split
      · omega
      · split <;> omega

/-- Ops do not move an offset in front of all of them: their `totalShift` is zero. -/
theorem totalShift_of_lt {length offset : Nat} : ∀ {ops : List Op} {last : Nat},
    check length last ops = .ok () → offset < last → totalShift offset ops = 0
  | [], _, _, _ => rfl
  | op :: ops, last, h, hlt => by
    obtain ⟨hle, -, hlast, hops⟩ := check_cons h
    have hbefore : offset < op.stop := by omega
    have hrest := totalShift_of_lt hops hbefore
    rw [totalShift, hrest]
    cases op with
    | insert s cs =>
      rw [start] at hlast
      rw [shift, if_neg (by omega)]
      rfl
    | delete s e =>
      rw [start, stop] at hle
      rw [start] at hlast
      rw [shift, if_neg (by omega), if_neg (by omega)]
      rfl

/-- Ops that passed the `check` keep offsets in order. -/
theorem add_totalShift_mono {length : Nat} : ∀ {ops : List Op} {last x y : Nat},
    check length last ops = .ok () → x ≤ y →
      (x : Int) + totalShift x ops ≤ y + totalShift y ops
  | [], _, x, y, _, hxy => by
    simp only [totalShift]
    omega
  | op :: ops, _, x, y, h, hxy => by
    obtain ⟨hle, -, -, hops⟩ := check_cons h
    have hrest := add_totalShift_mono hops hxy
    simp only [totalShift]
    cases op with
    | insert s cs =>
      simp only [shift]
      split <;> split <;> omega
    | delete s e =>
      rw [start, stop] at hle
      rw [stop] at hops
      -- the ops after this one start at `e` or later, so they do not move what is before `e`
      by_cases hy : y < e
      · rw [totalShift_of_lt hops hy, totalShift_of_lt hops (hxy.trans_lt hy)]
        simp only [shift]
        split <;> split <;> omega
      · by_cases hx : x < e
        · have hstop := add_totalShift_mono hops (Nat.le_of_not_lt hy)
          have hnonneg := @totalShift_nonneg length e ops _ hops
          rw [totalShift_of_lt hops hx]
          simp only [shift, if_pos (Nat.le_of_not_lt hy), if_neg (Nat.not_le_of_lt hx)]
          split <;> omega
        · simp only [shift, if_pos (Nat.le_of_not_lt hy), if_pos (Nat.le_of_not_lt hx)]
          omega

/-- Ops change the length of a text as they move its end, by their `totalShift`. -/
theorem length_applyFrom {length : Nat} : ∀ {ops : List Op} {pos : Nat} {cs : List Char},
    check length pos ops = .ok () → pos + cs.length = length →
      ((applyFrom pos cs ops).length : Int) = cs.length + totalShift length ops
  | [], _, _, _, _ => by
    simp [applyFrom, totalShift]
  | op :: ops, pos, cs, h, hlen => by
    obtain ⟨hle, hstop, hpos, hops⟩ := check_cons h
    rw [totalShift]
    cases op with
    | insert s new =>
      rw [stop] at hstop hops
      rw [start] at hpos
      have hdrop : s + (cs.drop (s - pos)).length = length := by
        rw [List.length_drop]
        omega
      have hrest := length_applyFrom hops hdrop
      simp only [applyFrom, shift, if_pos hstop, List.length_append, List.length_take,
        Int.natCast_add, hrest, List.length_drop]
      omega
    | delete s e =>
      rw [stop] at hstop hops
      rw [start] at hpos
      rw [start, stop] at hle
      have hdrop : e + (cs.drop (e - pos)).length = length := by
        rw [List.length_drop]
        omega
      have hrest := length_applyFrom hops hdrop
      simp only [applyFrom, shift, if_pos hstop, List.length_append, List.length_take,
        Int.natCast_add, hrest, List.length_drop]
      omega

/-- An offset in the text is carried into the text that the ops make: `carry` stays in `apply`. -/
theorem carry_le {ops : List Op} {cs : List Char} {offset : Nat}
    (h : check cs.length 0 ops = .ok ()) (ho : offset ≤ cs.length) :
    carry ops offset ≤ (apply ops cs).length := by
  have hlength := length_applyFrom h (Nat.zero_add cs.length)
  have hmono := add_totalShift_mono h ho
  rw [carry, apply]
  omega

/-- The `totalShift` of everything past the end of the text is that of the end. -/
theorem totalShift_of_ge {length offset : Nat} (ho : length ≤ offset) :
    ∀ {ops : List Op} {last : Nat}, check length last ops = .ok () →
      totalShift offset ops = totalShift length ops
  | [], _, _ => rfl
  | op :: ops, last, h => by
    obtain ⟨hle, hstop, -, hops⟩ := check_cons h
    rw [totalShift, totalShift, totalShift_of_ge ho hops]
    cases op with
    | insert s cs =>
      rw [stop] at hstop
      rw [shift, shift, if_pos hstop, if_pos (hstop.trans ho)]
    | delete s e =>
      rw [stop] at hstop
      rw [shift, shift, if_pos hstop, if_pos (hstop.trans ho)]

/-- An offset past the end of the text stays as far past it, by `carry`. -/
theorem carry_le_add {ops : List Op} {cs : List Char} {offset n : Nat}
    (h : check cs.length 0 ops = .ok ()) (ho : offset ≤ cs.length + n) :
    carry ops offset ≤ (apply ops cs).length + n := by
  rcases Nat.le_total offset cs.length with hle | hge
  · exact Nat.le_add_right_of_le (carry_le h hle)
  · have hlength := length_applyFrom h (Nat.zero_add cs.length)
    rw [carry, totalShift_of_ge hge h, apply]
    omega

end Op

/-! ### Selections -/

theorem Selection.anchor_between (a c : Nat) : (between a c).anchor = a := by
  rw [anchor, between]
  dsimp only
  split <;> omega

theorem Selection.Valid.ends_le {length : Nat} {s : Selection} (h : s.Valid length) :
    s.anchor ≤ length ∧ s.cursor ≤ length := by
  obtain ⟨hle, hstop, hcursor⟩ := h
  rw [anchor]
  split <;> omega

namespace Buffer

/-- The selection lies in the text. -/
def InText (b : Buffer) : Prop :=
  b.selection.Valid b.length

theorem InText.stopGroup {b : Buffer} (h : b.InText) (stop : Bool) : (b.stopGroup stop).InText := by
  rw [InText, length, selection_stopGroup, text_stopGroup]
  exact h

theorem InText.commit {b : Buffer} (h : b.InText) {ops : List Op}
    (hcheck : Op.check b.length 0 ops = .ok ()) : (b.commit ops).InText := by
  rw [InText, length, text_commit hcheck]
  exact Selection.valid_between (Op.carry_le hcheck h.ends_le.1) (Op.carry_le hcheck h.ends_le.2)

/-- A transaction keeps the selection `InText`. -/
theorem InText.edit {b : Buffer} (h : b.InText) (stops : UndoStops) (ops : List Op) :
    (b.edit stops ops).2.InText := by
  rcases b.edit_cases stops ops with ⟨stop, heq⟩ | ⟨hcheck, before, after, heq⟩
  · rw [heq]
    exact h.stopGroup stop
  · rw [heq]
    refine ((h.stopGroup before).commit ?_).stopGroup after
    rw [length, text_stopGroup]
    exact hcheck

/-- A transaction leaves the ends of the selection no further past the end of the text. -/
theorem ends_edit_le {b : Buffer} {n : Nat}
    (h : b.selection.anchor ≤ b.length + n ∧ b.selection.cursor ≤ b.length + n)
    (stops : UndoStops) (ops : List Op) :
    (b.edit stops ops).2.selection.anchor ≤ (b.edit stops ops).2.length + n ∧
      (b.edit stops ops).2.selection.cursor ≤ (b.edit stops ops).2.length + n := by
  rcases b.edit_cases stops ops with ⟨stop, heq⟩ | ⟨hcheck, before, after, heq⟩
  · rw [heq, length, selection_stopGroup, text_stopGroup]
    exact h
  · have hcheck : Op.check (b.stopGroup before).length 0 (Op.arrange ops) = .ok () := by
      rw [length, text_stopGroup]
      exact hcheck
    rw [heq, length, selection_stopGroup, text_stopGroup, text_commit hcheck, text_stopGroup]
    show (Selection.between _ _).anchor ≤ _ ∧ Op.carry _ _ ≤ _
    rw [Selection.anchor_between, selection_stopGroup]
    rw [length, text_stopGroup] at hcheck
    exact ⟨Op.carry_le_add hcheck h.1, Op.carry_le_add hcheck h.2⟩

theorem inText_jump (b : Buffer) (text : List Char) (past future : List (List Char)) :
    (b.jump text past future).InText :=
  Selection.valid_clamp _ _

/-! ### Read-only buffers -/

theorem readOnly_edit (b : Buffer) (stops : UndoStops) (ops : List Op) :
    (b.edit stops ops).2.readOnly = b.readOnly := by
  rcases b.edit_cases stops ops with ⟨stop, heq⟩ | ⟨-, before, after, heq⟩
  · rw [heq, readOnly_stopGroup]
  · rw [heq, readOnly_stopGroup]
    exact b.readOnly_stopGroup before

theorem text_edit_of_readOnly {b : Buffer} (h : b.readOnly = true) (stops : UndoStops)
    (ops : List Op) : (b.edit stops ops).2.text = b.text := by
  rw [edit, if_pos h]
  exact b.text_stopGroup _

end Buffer

namespace Host

theorem readOnly_edit (h : Host) (stops : UndoStops) (ops : List Op) :
    (h.edit stops ops).2.buffer.readOnly = h.buffer.readOnly := by
  rcases h.edit_cases stops ops with heq | heq
  · rw [heq]
  · rw [heq]
    exact h.buffer.readOnly_edit stops ops

theorem Trace.readOnly {h h' : Host} {log : List Transaction} (ht : Trace h log h') :
    h'.buffer.readOnly = h.buffer.readOnly := by
  induction ht with
  | done h => rfl
  | select s _ ih => exact ih
  | edit stops ops _ ih => exact ih.trans (readOnly_edit _ stops ops)

theorem Trace.text_of_readOnly {h h' : Host} {log : List Transaction} (ht : Trace h log h')
    (hro : h.buffer.readOnly = true) : h'.text = h.text := by
  induction ht with
  | done h => rfl
  | select s _ ih => exact ih hro
  | @edit h _ _ stops ops _ ih =>
    refine (ih ((h.readOnly_edit stops ops).trans hro)).trans ?_
    rcases h.edit_cases stops ops with heq | heq
    · rw [heq]
      rfl
    · rw [heq]
      exact Buffer.text_edit_of_readOnly hro stops ops

theorem StepsTo.exists_trace {h h' : Host} (hs : StepsTo h h') : ∃ log, Trace h log h' := by
  rcases hs with ht | ⟨m, ⟨log, ht, -⟩, rfl⟩
  · exact ⟨[], ht⟩
  · exact ⟨_, ht.append (.edit .checkpoint [.insert 0 []] (.done _))⟩

end Host

end SexpEdit
