/-
Transactions, one op at a time.

A transaction is given in offsets of the text before it, in any order.  What it means is said
without its check and its single pass: put its ops in order by start, insertions first and ties as
they were given, and make them one at a time, from the last to the first, so that each op finds the
text before it as it was.  There is one such order.  A transaction is refused exactly if some op in
that order does not fit, and then it leaves no trace; otherwise the text is what its ops make of it,
and the offsets of the old text follow their characters into the new one.

* `Op.arranged_iff` — there is one stable order of some ops, which is `Op.arrange`;
* `Op.check_eq_error_iff` — the check refuses ops of which one does not fit;
* `Op.foldr_revise` — one pass over the text makes what the ops make one at a time;
* `Buffer.edit_makes_ops` — what a transaction that passes the check does to a writable buffer;
* `Buffer.offsets_follow_text` — where a transaction carries the offsets of the text.
-/
import Mathlib.Data.List.Sort
import Mathlib.Data.Prod.Lex
import SexpEdit.Proofs.Layout

namespace SexpEdit

namespace Op

/-! ### The order of the ops -/

/-- By start, and insertions before deletions. -/
def rank (op : Op) : ℕ ×ₗ Bool :=
  toLex (op.start, op.isDeletion)

/-- The list `sorted` has the same ops in the order of their `rank`, those of one rank as in
`ops`. -/
structure Arranged (ops sorted : List Op) : Prop where
  ordered : sorted.Pairwise fun a b => a.rank ≤ b.rank
  stable : ∀ r, sorted.filter (fun op => op.rank = r) = ops.filter fun op => op.rank = r

theorem before_iff {a b : Op} : a.before b = true ↔ a.rank ≤ b.rank := by
  have hdeletion : (!a.isDeletion || b.isDeletion) = true ↔ a.isDeletion ≤ b.isDeletion := by
    cases a.isDeletion <;> cases b.isDeletion <;> decide
  simp only [before, rank, Prod.Lex.toLex_le_toLex, ← hdeletion, Bool.or_eq_true, Bool.and_eq_true,
    decide_eq_true_eq, beq_iff_eq]

theorem place_eq (a : Op) (ops : List Op) :
    place a ops = ops.orderedInsert (fun a b => a.rank ≤ b.rank) a := by
  induction ops with
  | nil => rfl
  | cons b ops ih =>
    rw [place, List.orderedInsert_cons, ih]
    simp only [before_iff]

theorem arrange_eq (ops : List Op) :
    arrange ops = ops.insertionSort fun a b => a.rank ≤ b.rank := by
  induction ops with
  | nil => rfl
  | cons a ops ih => rw [arrange, place_eq, ih, List.insertionSort_cons]

theorem arrange_perm (ops : List Op) : (arrange ops).Perm ops := by
  rw [arrange_eq]
  exact List.perm_insertionSort _ ops

/-- By `place` an op goes behind ops of other ranks only. -/
theorem filter_place (r : ℕ ×ₗ Bool) (a : Op) (ops : List Op) :
    (place a ops).filter (fun op => op.rank = r) = (a :: ops).filter fun op => op.rank = r := by
  induction ops with
  | nil => rfl
  | cons b ops ih =>
    rw [place]
    split
    · rfl
    · next hnot =>
      have hlt : b.rank < a.rank := lt_of_not_ge fun hle => hnot (before_iff.mpr hle)
      rw [List.filter_cons, ih]
      simp only [List.filter_cons]
      by_cases hb : b.rank = r
      · simp [hb, (hb ▸ hlt).ne']
      · simp [hb]

theorem arranged_arrange (ops : List Op) : Arranged ops (arrange ops) where
  ordered := by
    rw [arrange_eq]
    exact List.pairwise_insertionSort _ ops
  stable r := by
    induction ops with
    | nil => rfl
    | cons a ops ih => rw [arrange, filter_place, List.filter_cons, List.filter_cons, ih]

/-- No op of a list is below the first of another one that has the same ops of its `rank`. -/
theorem rank_le_of_filter {a b : Op} {as bs : List Op}
    (hbs : (b :: bs).Pairwise fun a b => a.rank ≤ b.rank)
    (h : (b :: bs).filter (fun op => op.rank = a.rank) =
      (a :: as).filter fun op => op.rank = a.rank) : b.rank ≤ a.rank := by
  have hmem : a ∈ (a :: as).filter fun op => op.rank = a.rank :=
    List.mem_filter.mpr ⟨List.mem_cons_self, decide_eq_true rfl⟩
  rw [← h] at hmem
  rcases List.mem_cons.mp (List.mem_filter.mp hmem).1 with rfl | hin
  · exact le_rfl
  · exact (List.pairwise_cons.mp hbs).1 a hin

/-- Ordered ops are their own stable order, the only one that is `Arranged`. Both lists start with
an op of the least rank, and the first op of that rank is the same. -/
theorem Arranged.eq_of_ordered : ∀ {xs ys : List Op}, Arranged ys xs →
    ys.Pairwise (fun a b => a.rank ≤ b.rank) → xs = ys
  | [], [], _, _ => rfl
  | [], y :: ys, h, _ => by
    have hnone := h.stable y.rank
    rw [List.filter_cons, if_pos (decide_eq_true rfl)] at hnone
    cases hnone
  | x :: xs, [], h, _ => by
    have hnone := h.stable x.rank
    rw [List.filter_cons, if_pos (decide_eq_true rfl)] at hnone
    cases hnone
  | x :: xs, y :: ys, h, hys => by
    have hrank : x.rank = y.rank :=
      le_antisymm (rank_le_of_filter h.ordered (h.stable y.rank))
        (rank_le_of_filter hys (h.stable x.rank).symm)
    have hfirst := h.stable x.rank
    rw [List.filter_cons, List.filter_cons, if_pos (decide_eq_true rfl),
      if_pos (decide_eq_true hrank.symm), List.cons.injEq] at hfirst
    obtain ⟨rfl, -⟩ := hfirst
    have hrest : Arranged ys xs := by
      refine ⟨(List.pairwise_cons.mp h.ordered).2, fun r => ?_⟩
      have hr := h.stable r
      rw [List.filter_cons, List.filter_cons] at hr
      split at hr
      · exact List.tail_eq_of_cons_eq hr
      · exact hr
    rw [hrest.eq_of_ordered (List.pairwise_cons.mp hys).2]

/-- **There is one stable order of some ops**, and `arrange` finds it. -/
theorem arranged_iff {ops sorted : List Op} : Arranged ops sorted ↔ sorted = arrange ops := by
  have harrange := arranged_arrange ops
  constructor
  · intro h
    have hsame : Arranged (arrange ops) sorted :=
      ⟨h.ordered, fun r => (h.stable r).trans (harrange.stable r).symm⟩
    exact hsame.eq_of_ordered harrange.ordered
  · rintro rfl
    exact harrange

/-! ### What does not depend on the order -/

/-- What is `insertedAt` an offset is put in by the ops of one rank. -/
theorem insertedAt_filter (n : Nat) (ops : List Op) :
    insertedAt n (ops.filter fun op => op.rank = toLex (n, false)) = insertedAt n ops := by
  induction ops with
  | nil => rfl
  | cons op ops ih =>
    cases op with
    | insert s new =>
      by_cases hs : s = n
      · have hrank : (insert s new).rank = toLex (n, false) := by rw [rank, start, isDeletion, hs]
        rw [List.filter_cons, if_pos (decide_eq_true hrank), insertedAt, insertedAt, if_pos hs,
          if_pos hs, ih]
      · have hrank : (insert s new).rank ≠ toLex (n, false) := fun h =>
          hs (congrArg (fun r => (ofLex r).1) h)
        rw [List.filter_cons, if_neg (by simpa using hrank), insertedAt, if_neg hs, ih]
    | delete s e =>
      have hrank : (delete s e).rank ≠ toLex (n, false) := fun h =>
        Bool.false_ne_true (congrArg (fun r => (ofLex r).2) h).symm
      rw [List.filter_cons, if_neg (by simpa using hrank), insertedAt, ih]

theorem insertedAt_arrange (n : Nat) (ops : List Op) :
    insertedAt n (arrange ops) = insertedAt n ops := by
  rw [← insertedAt_filter, (arranged_arrange ops).stable, insertedAt_filter]

/-- The `layout` is the same for the ops as they were given. -/
theorem layout_arrange (cs : List Char) (ops : List Op) :
    layout cs (arrange ops) = layout cs ops := by
  refine slots_congr fun n _ _ => ?_
  rw [slot, slot, keptAt, keptAt, insertedAt_arrange, (arrange_perm ops).any_eq]

/-! ### The check -/

/-- Some op does not fit: it is the wrong way round, or it ends past a text of some length, or it
starts before the end of the op in front of it, where the first one is to start at `last` or
later. -/
def Misfits (length last : Nat) (ops : List Op) : Prop :=
  ∃ (front : List Op) (op : Op) (rest : List Op), ops = front ++ op :: rest ∧
    (op.stop < op.start ∨ length < op.stop ∨
      op.start < (front.getLast?.map stop).getD last)

theorem misfits_cons {length last : Nat} {op : Op} {ops : List Op} :
    Misfits length last (op :: ops) ↔
      (op.stop < op.start ∨ length < op.stop ∨ op.start < last) ∨ Misfits length op.stop ops := by
  constructor
  · rintro ⟨front, a, rest, heq, hbad⟩
    rcases List.cons_eq_append_iff.mp heq with ⟨rfl, hcons⟩ | ⟨front', rfl, rfl⟩
    · cases hcons
      exact .inl hbad
    · refine .inr ⟨front', a, rest, rfl, ?_⟩
      rw [List.getLast?_cons] at hbad
      cases hlast : front'.getLast? <;> simpa [hlast] using hbad
  · rintro (hbad | ⟨front, a, rest, rfl, hbad⟩)
    · exact ⟨[], op, ops, rfl, hbad⟩
    · refine ⟨op :: front, a, rest, rfl, ?_⟩
      rw [List.getLast?_cons]
      cases hlast : front.getLast? <;> simpa [hlast] using hbad

/-- **The `check` refuses ordered ops of which one `Misfits`**, and no others. -/
theorem check_eq_error_iff {length last : Nat} {ops : List Op} :
    (∃ e, check length last ops = .error e) ↔ Misfits length last ops := by
  induction ops generalizing last with
  | nil =>
    constructor
    · rintro ⟨e, h⟩
      cases h
    · rintro ⟨front, op, rest, heq, -⟩
      cases front <;> cases heq
  | cons op ops ih =>
    rw [misfits_cons, ← ih, check]
    by_cases hout : op.stop < op.start ∨ length < op.stop
    · rw [if_pos (by simpa using hout)]
      exact ⟨fun _ => .inl (by omega), fun _ => ⟨_, rfl⟩⟩
    · rw [if_neg (by simpa using hout)]
      by_cases hlast : op.start < last
      · rw [if_pos hlast]
        exact ⟨fun _ => .inl (by omega), fun _ => ⟨_, rfl⟩⟩
      · rw [if_neg hlast]
        exact ⟨.inr, fun h => h.resolve_left (by omega)⟩

/-! ### The text -/

/-- **One pass makes what the ops make one at a time.**  The pass has gone through the text `front`
already, which the ops do not touch. -/
theorem foldr_revise {front cs : List Char} {ops : List Op}
    (h : check (front.length + cs.length) front.length ops = .ok ()) :
    ops.foldr revise (front ++ cs) = front ++ applyFrom front.length cs ops := by
  induction ops generalizing front cs with
  | nil => rfl
  | cons op ops ih =>
    obtain ⟨hle, hstop, hfront, hops⟩ := check_cons h
    -- the text up to the end of the op is passed, and the other ops are made in the rest
    have hpassed : (front ++ cs.take (op.stop - front.length)).length = op.stop := by
      rw [List.length_append, List.length_take]
      omega
    have hrest : ops.foldr revise (front ++ cs) = front ++ cs.take (op.stop - front.length) ++
        applyFrom op.stop (cs.drop (op.stop - front.length)) ops := by
      have hlength : front.length + cs.length = (front ++ cs.take (op.stop - front.length)).length +
          (cs.drop (op.stop - front.length)).length := by
        rw [hpassed, List.length_drop]
        omega
      have hchecked : check ((front ++ cs.take (op.stop - front.length)).length +
          (cs.drop (op.stop - front.length)).length)
          (front ++ cs.take (op.stop - front.length)).length ops = .ok () := by
        rw [← hlength, hpassed]
        exact hops
      have hmade := ih hchecked
      rw [List.append_assoc, List.take_append_drop, hpassed] at hmade
      exact hmade
    rw [List.foldr_cons, hrest]
    cases op with
    | insert s new =>
      rw [stop] at hpassed
      rw [revise, stop, List.take_left' hpassed, List.drop_left' hpassed, applyFrom,
        List.append_assoc]
    | delete s e =>
      rw [start, stop] at hle
      rw [start] at hfront
      rw [stop] at hpassed
      rw [revise, stop, List.drop_left' hpassed, applyFrom,
        List.take_append_of_le_length (by omega), List.take_append, List.take_take,
        Nat.min_eq_left (by omega), List.take_of_length_le hfront, List.append_assoc]

theorem apply_eq_foldr {cs : List Char} {ops : List Op} (h : check cs.length 0 ops = .ok ()) :
    apply ops cs = ops.foldr revise cs := by
  have hempty : check (([] : List Char).length + cs.length) ([] : List Char).length ops =
      .ok () := by
    rw [List.length_nil, Nat.zero_add]
    exact h
  exact (foldr_revise hempty).symm

/-- The end of the text is carried by `carry` to the end of the new one. -/
theorem carry_length {cs : List Char} {ops : List Op} (h : check cs.length 0 ops = .ok ()) :
    carry ops cs.length = (apply ops cs).length := by
  rw [carry, ← length_applyFrom h (Nat.zero_add cs.length), Int.toNat_natCast, apply]

/-- The characters that `ops` make of `cs`, with their origins. The ops are made one at a time, from
the last to the first. -/
def traced (cs : List Char) (ops : List Op) : List (Char × Origin) :=
  (arrange ops).foldr track (sourced cs)

theorem revise_of_isNoop {op : Op} (h : op.isNoop = true) (hle : op.start ≤ op.stop)
    (cs : List Char) : revise op cs = cs := by
  cases op with
  | insert s new =>
    rw [isNoop, List.isEmpty_iff] at h
    rw [revise, h, List.nil_append, List.take_append_drop]
  | delete s e =>
    rw [isNoop, decide_eq_true_eq] at h
    rw [start, stop] at hle
    rw [revise, Nat.le_antisymm hle h, List.take_append_drop]

theorem shift_of_isNoop {op : Op} (h : op.isNoop = true) (offset : Nat) : shift offset op = 0 := by
  cases op with
  | insert s new =>
    rw [isNoop, List.isEmpty_iff] at h
    rw [shift, h, List.length_nil]
    split <;> rfl
  | delete s e =>
    rw [isNoop, decide_eq_true_eq] at h
    rw [shift]
    split
    · omega
    · rw [if_neg (by omega)]

/-- Ops that are all `isNoop` leave the text and its offsets. -/
theorem foldr_revise_of_isNoop {length last : Nat} {ops : List Op} (h : ops.all isNoop = true)
    (hcheck : check length last ops = .ok ()) (cs : List Char) :
    ops.foldr revise cs = cs ∧ ∀ n, carry ops n = n := by
  have hshift : ∀ n, totalShift n ops = 0 ∧ ops.foldr revise cs = cs := by
    intro n
    induction ops generalizing last with
    | nil => exact ⟨rfl, rfl⟩
    | cons op ops ih =>
      obtain ⟨hle, -, -, hops⟩ := check_cons hcheck
      rw [List.all_cons, Bool.and_eq_true] at h
      obtain ⟨hzero, hsame⟩ := ih h.2 hops
      rw [totalShift, shift_of_isNoop h.1, hzero, List.foldr_cons, hsame]
      exact ⟨rfl, revise_of_isNoop h.1 hle cs⟩
  refine ⟨(hshift 0).2, fun n => ?_⟩
  rw [carry, (hshift n).1, Int.add_zero, Int.toNat_natCast]

end Op

/-- A `Valid` selection is the one between its ends. -/
theorem Selection.Valid.between_ends {length : Nat} {s : Selection} (h : s.Valid length) :
    Selection.between s.anchor s.cursor = s := by
  obtain ⟨hle, -, hcursor⟩ := h
  cases s with
  | mk start stop cursor =>
    simp only [between, anchor] at hle hcursor ⊢
    rcases hcursor with rfl | rfl
    · simp [hle]
    · split <;> simp_all

namespace Buffer

variable {b : Buffer} {stops : UndoStops} {ops : List Op}

/-! ### A transaction on a writable buffer -/

/-- A refused transaction at most ends the undo group, where `stops.before` asks for it. -/
theorem edit_of_error {e : EditError} (hro : b.readOnly = false)
    (h : Op.check b.length 0 (Op.arrange ops) = .error e) :
    b.edit stops ops = (.error e, b.stopGroup stops.before) := by
  have hcheck : Op.check (b.stopGroup stops.before).length 0 (Op.arrange ops) = .error e := by
    rw [length, text_stopGroup]
    exact h
  rw [edit, if_neg (by rw [hro]; exact Bool.false_ne_true)]
  dsimp only
  rw [hcheck]

/-- A transaction that passes the `check` makes its ops one at a time, and carries the selection. -/
theorem edit_of_ok (stops : UndoStops) (hro : b.readOnly = false)
    (h : Op.check b.length 0 (Op.arrange ops) = .ok ()) :
    (b.edit stops ops).1 = .ok true ∧
      (b.edit stops ops).2.text = (Op.arrange ops).foldr Op.revise b.text ∧
      (b.InText → (b.edit stops ops).2.selection =
        .between (Op.carry (Op.arrange ops) b.selection.anchor)
          (Op.carry (Op.arrange ops) b.selection.cursor)) := by
  have hcheck : Op.check (b.stopGroup stops.before).length 0 (Op.arrange ops) = .ok () := by
    rw [length, text_stopGroup]
    exact h
  rw [edit, if_neg (by rw [hro]; exact Bool.false_ne_true)]
  dsimp only
  rw [hcheck]
  dsimp only
  rw [text_stopGroup, selection_stopGroup]
  by_cases hnoop : (Op.arrange ops).all Op.isNoop = true
  · obtain ⟨htext, hcarry⟩ := Op.foldr_revise_of_isNoop hnoop h b.text
    rw [if_pos hnoop, text_stopGroup, selection_stopGroup, htext, hcarry, hcarry]
    exact ⟨rfl, rfl, fun hin => hin.between_ends.symm⟩
  · have hselection : ((b.stopGroup stops.before).commit (Op.arrange ops)).selection =
        .between (Op.carry (Op.arrange ops) b.selection.anchor)
          (Op.carry (Op.arrange ops) b.selection.cursor) := by
      rw [← b.selection_stopGroup stops.before]
      rfl
    rw [if_neg hnoop, text_commit hcheck, text_stopGroup, Op.apply_eq_foldr h, hselection]
    exact ⟨rfl, rfl, fun _ => rfl⟩

theorem check_of_edit (h : (b.edit stops ops).1 = .ok true) :
    b.readOnly = false ∧ Op.check b.length 0 (Op.arrange ops) = .ok () := by
  cases hro : b.readOnly with
  | true =>
    rw [edit, if_pos hro] at h
    cases h
  | false =>
    cases hcheck : Op.check b.length 0 (Op.arrange ops) with
    | error e =>
      rw [edit_of_error hro hcheck] at h
      cases h
    | ok _ => exact ⟨rfl, rfl⟩

/-! ### What a transaction means -/

/-- A transaction that passes the `check` makes its ops: at every offset of the new text stands what
was put in there, as it was recorded, and then the old character, if no op deletes it. -/
theorem edit_makes_ops (hro : b.readOnly = false) (stops : UndoStops)
    (hcheck : Op.check b.length 0 (Op.arrange ops) = .ok ()) :
    (b.edit stops ops).1 = .ok true ∧
      (b.edit stops ops).2.text = (Op.arrange ops).foldr Op.revise b.text ∧
      (b.edit stops ops).2.text = (Op.layout b.text ops).map Prod.fst := by
  obtain ⟨hok, htext, -⟩ := edit_of_ok stops hro hcheck
  have hlayout : (Op.layout b.text ops).map Prod.fst =
      (Op.arrange ops).foldr Op.revise b.text := by
    rw [← Op.layout_arrange, ← Op.foldr_track hcheck, Op.map_fst_foldr_track]
  exact ⟨hok, htext, htext.trans hlayout.symm⟩

/-- **The offsets of a text follow it through a transaction.**  Each character of the new text has
an origin in the old one.  Offsets keep their order, and the end goes to the end; the offset of a
character that is not deleted goes to where that character is; the offsets of a deletion all go to
one place, where the text before the deletion and what is put in at its start end.  A selection in
the text goes with its ends. -/
theorem offsets_follow_text (h : (b.edit stops ops).1 = .ok true) :
    (Op.traced b.text ops).map Prod.fst = (b.edit stops ops).2.text ∧
      (∀ m n, m ≤ n → n ≤ b.length →
        Op.carry (Op.arrange ops) m ≤ Op.carry (Op.arrange ops) n) ∧
      Op.carry (Op.arrange ops) b.length = (b.edit stops ops).2.length ∧
      (∀ n c, b.text[n]? = some c → (∀ op ∈ ops, ¬op.covers n) →
        (Op.traced b.text ops)[Op.carry (Op.arrange ops) n]? = some (c, .kept n)) ∧
      (∀ s e, .delete s e ∈ ops → s < e → ∃ x y,
        Op.traced b.text ops = x ++ ((Op.insertedAt s ops).map (·, .put s) ++ y) ∧
        (∀ z ∈ x, z.2.offset < s) ∧ (∀ z ∈ y, e ≤ z.2.offset) ∧
        ∀ n, s ≤ n → n < e →
          Op.carry (Op.arrange ops) n = x.length + (Op.insertedAt s ops).length) ∧
      (b.InText → (b.edit stops ops).2.selection =
        .between (Op.carry (Op.arrange ops) b.selection.anchor)
          (Op.carry (Op.arrange ops) b.selection.cursor)) := by
  obtain ⟨hro, hcheck⟩ := check_of_edit h
  obtain ⟨-, htext, hselection⟩ := edit_of_ok stops hro hcheck
  have htraced : Op.traced b.text ops = Op.layout b.text (Op.arrange ops) := Op.foldr_track hcheck
  refine ⟨?_, ?_, ?_, ?_, ?_, hselection⟩
  · rw [Op.traced, Op.map_fst_foldr_track, htext]
  · intro m n hle _
    exact Int.toNat_le_toNat (Op.add_totalShift_mono hcheck hle)
  · rw [length, length, htext, ← Op.apply_eq_foldr hcheck]
    exact Op.carry_length hcheck
  · intro n c hc hkept
    rw [htraced]
    refine Op.getElem?_layout_carry hcheck hc fun op hop => ?_
    exact hkept op ((Op.arrange_perm ops).mem_iff.mp hop)
  · intro s e hmem hlt
    rw [htraced, ← Op.insertedAt_arrange s ops]
    exact Op.exists_layout_delete hcheck ((Op.arrange_perm ops).mem_iff.mpr hmem) hlt

/-- Two characters are replaced, a third one is put in before the end, and the selection covers all
of that: its ends go with the `a` before the deletion and with the `d` behind it. -/
theorem offsets_follow_text_replaced :
    let b := { ofText "clojure" ['a', 'b', 'c', 'd'] with selection := .between 3 0 }
    let ops : List Op := [.insert 3 ['x'], .delete 1 3, .insert 1 ['y', 'z']]
    (b.edit .join ops).1 = .ok true ∧
      (Op.traced b.text ops).map Prod.fst = ['a', 'y', 'z', 'x', 'd'] ∧
      (Op.traced b.text ops)[Op.carry (Op.arrange ops) 3]? = some ('d', .kept 3) ∧
      Op.carry (Op.arrange ops) 1 = Op.carry (Op.arrange ops) 2 ∧
      (b.edit .join ops).2.selection = .between 4 0 := by
  intro b ops
  have hok : (b.edit .join ops).1 = .ok true := rfl
  obtain ⟨htext, -, -, hkept, hdeleted, hselection⟩ := offsets_follow_text hok
  obtain ⟨x, y, -, -, -, hplace⟩ := hdeleted 1 3 (by decide) (by decide)
  refine ⟨hok, htext, hkept 3 'd' rfl (by decide), ?_, hselection ⟨?_, ?_, ?_⟩⟩
  · exact (hplace 1 (by decide) (by decide)).trans (hplace 2 (by decide) (by decide)).symm
  · decide
  · decide
  · exact .inl rfl

end Buffer

end SexpEdit
