/-
A transaction is one delta.

The text of a transaction is made by bytes: the offsets of its ops are looked up in the text before
it, the ops that do nothing are left out, and one delta copies what is between the others.  Ops that
passed the check are in order, so the delta can always be built and all its pieces are whole
characters.  It makes the text that the ops make when they are made by characters.

* `Op.check_cons` — what an op that passed the check says about its place;
* `Delta.Builder.replace?_reaches` — a replacement adds the text up to it and its own;
* `Op.addTo?_reaches` — so do ordered ops, one by one;
* `Op.rewrite?_eq` — one delta makes the text of the ops;
* `Buffer.text_commit` — and that is the text of the buffer.
-/
import SexpEdit.Proofs.Slices

namespace SexpEdit

open Text (byteLength)

namespace Delta

variable {old : List Char}

theorem joined?_singleton {piece : Piece} {text : List Char} (h : piece.text? old = some text) :
    joined? old [piece] = some text := by
  rw [joined?, h, joined?]
  exact congrArg some (List.append_nil text)

theorem joined?_append {pieces more : List Piece} {text rest : List Char}
    (h : joined? old pieces = some text) (hmore : joined? old more = some rest) :
    joined? old (pieces ++ more) = some (text ++ rest) := by
  induction pieces generalizing text with
  | nil =>
    cases h
    exact hmore
  | cons piece pieces ih =>
    rw [joined?] at h
    split at h
    · next first tail hfirst htail =>
      cases h
      rw [List.cons_append, joined?, hfirst, ih htail, List.append_assoc]
    · cases h

/-- The pieces of a builder make the text `made`, and stand for the first `n` characters. -/
structure Builder.Reaches (old : List Char) (b : Builder) (n : Nat) (made : List Char) : Prop where
  length : b.length = byteLength old
  reached : b.reached = byteLength (old.take n)
  pieces : joined? old b.pieces = some made

namespace Builder

variable {b : Builder} {made : List Char} {n : Nat}

/-- What is copied up to `j` is the characters from `i` up to it. -/
theorem joined?_kept (old : List Char) {i j : Nat} (h : i ≤ j) :
    joined? old (if byteLength (old.take i) < byteLength (old.take j) then
      [Piece.copy (byteLength (old.take i)) (byteLength (old.take j))] else []) =
      some (Text.slice old i j) := by
  split
  · exact joined?_singleton (Text.byteSlice?_take old h)
  · next hle =>
    -- no bytes are between the offsets, so no characters are
    have hadd := @Text.byteLength_take_add old i j h
    have hempty : Text.slice old i j = [] :=
      Decidable.byContradiction fun hne => by
        have hpos := Text.byteLength_pos hne
        omega
    rw [hempty, joined?]

/-- **A replacement adds the text up to it, and its own**: `Reaches` goes on to its end. -/
theorem replace?_reaches (h : b.Reaches old n made) {i j : Nat} (hi : n ≤ i) (text : List Char) :
    ∃ b', b.replace? (byteLength (old.take i)) (byteLength (old.take j)) text = some b' ∧
      b'.Reaches old j (made ++ (Text.slice old n i ++ text)) := by
  have hput : joined? old (if text.isEmpty then [] else [Piece.insert text]) = some text := by
    cases text with
    | nil => rfl
    | cons c cs => exact joined?_singleton rfl
  have hle := @Text.byteLength_take_le old n i hi
  have hkept := joined?_kept old hi
  rw [← h.reached] at hkept hle
  refine ⟨_, if_neg (by omega), h.length, rfl, ?_⟩
  exact joined?_append h.pieces (joined?_append hkept hput)

/-- The delta ends with what is left of `old`. -/
theorem text?_build (h : b.Reaches old n made) (hn : n ≤ old.length) :
    b.build.text? old = some (made ++ old.drop n) := by
  have hkept := joined?_kept old hn
  rw [List.take_length, ← h.reached, ← h.length, Text.slice, List.take_length] at hkept
  have hbuild : b.build.pieces =
      b.pieces ++ if b.reached < b.length then [Piece.copy b.reached b.length] else [] := by
    rw [build]
    split
    · rfl
    · rw [List.append_nil]
  rw [text?, hbuild]
  exact joined?_append h.pieces hkept

end Builder

end Delta

namespace Op

/-- Ordered ops pass the `check` one by one, each in the text and after the one before it. -/
theorem check_cons {length last : Nat} {op : Op} {ops : List Op}
    (h : check length last (op :: ops) = .ok ()) :
    op.start ≤ op.stop ∧ op.stop ≤ length ∧ last ≤ op.start ∧
      check length op.stop ops = .ok () := by
  rw [check] at h
  split at h
  · cases h
  · rename_i hin
    rw [Bool.or_eq_true, decide_eq_true_eq, decide_eq_true_eq, not_or] at hin
    split at h
    · cases h
    · exact ⟨by omega, by omega, by omega, h⟩

variable {cs : List Char}

/-- The first op of `applyFrom` keeps the text up to it and puts its own there. -/
theorem applyFrom_cons (op : Op) (ops : List Op) {pos : Nat} (hpos : pos ≤ op.start)
    (hle : op.start ≤ op.stop) :
    applyFrom pos (cs.drop pos) (op :: ops) =
      Text.slice cs pos op.start ++ (op.inserted ++ applyFrom op.stop (cs.drop op.stop) ops) := by
  have hdrop : ∀ {n : Nat}, pos ≤ n → (cs.drop pos).drop (n - pos) = cs.drop n := by
    intro n hn
    rw [List.drop_drop, Nat.add_sub_cancel' hn]
  cases op with
  | insert s new =>
    rw [start] at hpos
    rw [applyFrom, hdrop hpos, start, stop, inserted, Text.slice, List.drop_take]
  | delete s e =>
    rw [start] at hpos hle
    rw [stop] at hle
    rw [applyFrom, hdrop (Nat.le_trans hpos hle), start, stop, inserted, Text.slice, List.drop_take,
      List.nil_append]

theorem eq_of_isNoop {op : Op} (hnoop : op.isNoop) (hle : op.start ≤ op.stop) :
    op.inserted = [] ∧ op.stop = op.start := by
  cases op with
  | insert s new => exact ⟨List.isEmpty_iff.mp hnoop, rfl⟩
  | delete s e => exact ⟨rfl, Nat.le_antisymm (of_decide_eq_true hnoop) hle⟩

open Delta (Builder)

/-- **Ordered ops are added one by one.**  The delta stands for the characters up to `n`, and the
text between them and `pos` is still to be copied: an op that does nothing leaves it so. -/
theorem addTo?_reaches : ∀ {ops : List Op} {b : Builder} {n pos : Nat} {made : List Char},
    check cs.length pos ops = .ok () → n ≤ pos → pos ≤ cs.length → b.Reaches cs n made →
      ∃ b' m made', addTo? cs b ops = some b' ∧ m ≤ cs.length ∧ b'.Reaches cs m made' ∧
        made' ++ cs.drop m = made ++ (Text.slice cs n pos ++ applyFrom pos (cs.drop pos) ops)
  | [], b, n, pos, made, _, hn, hpos, hb => by
    refine ⟨b, n, made, rfl, Nat.le_trans hn hpos, hb, ?_⟩
    rw [applyFrom, Text.slice_append_drop hn]
  | op :: ops, b, n, pos, made, hcheck, hn, hpos, hb => by
    obtain ⟨hle, hin, hstart, hops⟩ := check_cons hcheck
    rw [addTo?, applyFrom_cons op ops hstart hle]
    by_cases hnoop : op.isNoop
    · obtain ⟨hnil, hstop⟩ := eq_of_isNoop hnoop hle
      obtain ⟨b', m, made', hadd, hm, hb', hmade⟩ :=
        addTo?_reaches hops (show n ≤ op.stop by omega) hin hb
      refine ⟨b', m, made', ?_, hm, hb', ?_⟩
      · rw [if_pos hnoop, hadd]
      · rw [hmade, hnil, hstop, List.nil_append, ← List.append_assoc (Text.slice cs n pos),
          Text.slice_append_slice hn hstart]
    · obtain ⟨b₁, hreplace, hb₁⟩ := Builder.replace?_reaches hb (Nat.le_trans hn hstart) op.inserted
      obtain ⟨b', m, made', hadd, hm, hb', hmade⟩ :=
        addTo?_reaches hops (Nat.le_refl op.stop) hin hb₁
      refine ⟨b', m, made', ?_, hm, hb', ?_⟩
      · rw [if_neg hnoop, Text.byteOffset_eq, Text.byteOffset_eq, hreplace]
        exact hadd
      · rw [hmade, Text.slice_eq_nil_of_le (Nat.le_refl op.stop), List.nil_append,
          ← Text.slice_append_slice hn hstart]
        simp only [List.append_assoc]

/-- **One delta makes the text of the ops**: `rewrite?` gives what `apply` does. -/
theorem rewrite?_eq {ops : List Op} (h : check cs.length 0 ops = .ok ()) :
    rewrite? ops cs = some (apply ops cs) := by
  have hempty : Builder.Reaches cs { length := byteLength cs } 0 [] := ⟨rfl, rfl, rfl⟩
  obtain ⟨b, m, made, hadd, hm, hb, hmade⟩ :=
    addTo?_reaches h (Nat.le_refl 0) (Nat.zero_le cs.length) hempty
  rw [rewrite?, hadd]
  dsimp only
  rw [Builder.text?_build hb hm, hmade]
  rfl

end Op

/-- The text of a transaction that passed the check is what `Op.apply` makes. -/
theorem Buffer.text_commit {b : Buffer} {ops : List Op} (h : Op.check b.length 0 ops = .ok ()) :
    (b.commit ops).text = Op.apply ops b.text := by
  rw [commit, renew, Op.rewrite?_eq h, Option.getD_some]

end SexpEdit
