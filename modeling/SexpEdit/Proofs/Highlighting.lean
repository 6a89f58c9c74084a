/-
Highlighting.

A text is shown line by line, and each line in up to three pieces, of which the middle one is
selected.  The ends of a selection are offsets in the whole text, and they are cut to every line
anew.  Put together again, the pieces are the text, and what is selected in them is the selection
less the line feeds, also when the selection reaches past the end of the text.

* `Screen.paint_parts` — a line in three pieces, character by character;
* `Piece.exists_ofLine?` — what the pieces of one line are;
* `Piece.exists_ofLines?` — and those of line after line;
* `highlight_shows_selection` — highlighting shows the text and selects the selection.
-/
import SexpEdit.Proofs.Columns
import SexpEdit.Screen

namespace SexpEdit

/-- How the selection `s` paints the character `c` at `offset`. Line feeds are between the lines,
where nothing is painted. -/
def Selection.paintAt (s : Selection) (offset : Nat) (c : Char) : Paint :=
  if c ≠ '\n' ∧ s.start ≤ offset ∧ offset < s.stop then .selected else .plain

namespace Screen

/-- Lines of cells put together with line feeds between them. -/
def sheet (rows : List (List Piece)) : List Cell :=
  [⟨'\n', .plain⟩].intercalate (rows.map lineCells)

theorem lineCells_append (ps qs : List Piece) :
    lineCells (ps ++ qs) = lineCells ps ++ lineCells qs :=
  List.flatMap_append

theorem lineCells_singleton (text : List Char) (selected : Bool) :
    lineCells [⟨text, selected⟩] = paintText (if selected then .selected else .plain) text :=
  List.flatMap_singleton _ _

/-- An empty piece may be left out of the `lineCells`. -/
theorem lineCells_ite {p : Prop} [Decidable p] {text : List Char} (h : ¬p → text = [])
    (selected : Bool) : lineCells (if p then [⟨text, selected⟩] else []) =
      paintText (if selected then .selected else .plain) text := by
  by_cases hp : p
  · rw [if_pos hp, lineCells_singleton]
  · rw [if_neg hp, h hp]
    rfl

theorem map_char_lineCells (ps : List Piece) :
    (lineCells ps).map Cell.char = ps.flatMap Piece.text := by
  rw [lineCells, List.map_flatMap]
  simp only [paintText, List.map_map, Function.comp_def, List.map_id']

/-- A line in three pieces: the middle one is selected, and any of them may be empty. -/
theorem paint_parts {line : List Char} {first last : Nat} (hle : first ≤ last)
    (hlast : last ≤ line.length) :
    paintText .plain (line.take first) ++ paintText .selected ((line.take last).drop first) ++
        paintText .plain (line.drop last) =
      line.mapIdx fun i c => ⟨c, if first ≤ i ∧ i < last then .selected else .plain⟩ := by
  have hplain : (paintText .plain (line.take first)).length = first := by
    rw [paintText, List.length_map, List.length_take]
    omega
  have hselected : (paintText .selected ((line.take last).drop first)).length = last - first := by
    rw [paintText, List.length_map, List.length_drop, List.length_take]
    omega
  refine List.ext_getElem? fun i => ?_
  rw [List.getElem?_mapIdx]
  rcases Nat.lt_or_ge i first with hi | hi
  · rw [List.append_assoc, List.getElem?_append_left (by omega), paintText, List.getElem?_map,
      List.getElem?_take_of_lt hi, if_neg (by omega)]
  · rcases Nat.lt_or_ge i last with hlt | hge
    · rw [List.getElem?_append_left (by rw [List.length_append]; omega),
        List.getElem?_append_right (by omega), hplain, paintText, List.getElem?_map,
        List.getElem?_drop, Nat.add_sub_cancel' hi, List.getElem?_take_of_lt hlt,
        if_pos ⟨hi, hlt⟩]
    · have hparts : first + (last - first) = last := by omega
      rw [List.getElem?_append_right (by rw [List.length_append]; omega), List.length_append,
        hplain, hselected, hparts, paintText, List.getElem?_map, List.getElem?_drop,
        Nat.add_sub_cancel' hge, if_neg (by omega)]

end Screen

namespace Piece

open Screen

/-- **The pieces of a line.** A selection that does not end before it starts cuts every line by
`ofLine?`, and each character of the line is in a piece that is selected just when its offset is. -/
theorem exists_ofLine? {s : Selection} (h : s.start ≤ s.stop) (start : Nat) (line : List Char) :
    ∃ ps, ofLine? s start line = some ps ∧ lineCells ps = line.mapIdx fun i c =>
      ⟨c, if s.start ≤ start + i ∧ start + i < s.stop then .selected else .plain⟩ := by
  generalize hfirst : min (max s.start start) (start + line.length) - start = first
  generalize hlast : min (max s.stop start) (start + line.length) - start = last
  have hle : first ≤ last := by omega
  have hlength : last ≤ line.length := by omega
  -- within the line the ends may be cut without a difference
  have hcut : (line.mapIdx fun i c => (⟨c, if s.start ≤ start + i ∧ start + i < s.stop then
      .selected else .plain⟩ : Cell)) =
      line.mapIdx fun i c => ⟨c, if first ≤ i ∧ i < last then .selected else .plain⟩ := by
    refine List.ext_getElem (by simp) fun i hi _ => ?_
    rw [List.length_mapIdx] at hi
    have hiff : (s.start ≤ start + i ∧ start + i < s.stop) ↔ first ≤ i ∧ i < last := by omega
    simp only [List.getElem_mapIdx, hiff]
  rw [hcut, ← paint_parts hle hlength]
  simp only [ofLine?, hfirst, hlast]
  by_cases heq : first = last
  · refine ⟨_, if_pos heq, ?_⟩
    have hnone : (line.take last).drop first = [] := by
      rw [List.drop_eq_nil_iff, List.length_take]
      omega
    rw [hnone, heq, paintText, paintText, paintText, List.map_nil, List.append_nil,
      ← List.map_append, List.take_append_drop]
    cases line with
    | nil => rfl
    | cons c line => exact lineCells_singleton (c :: line) false
  · refine ⟨_, (if_neg heq).trans (if_neg (Nat.not_lt.mpr hle)), ?_⟩
    have hbefore : ¬0 < first → line.take first = [] := by
      intro hzero
      rw [Nat.eq_zero_of_not_pos hzero, List.take_zero]
    have hafter : ¬last < line.length → line.drop last = [] := by
      intro hend
      rw [List.drop_eq_nil_iff]
      exact Nat.not_lt.mp hend
    rw [lineCells_append, lineCells_append, lineCells_ite hbefore, lineCells_singleton,
      lineCells_ite hafter]
    rfl

/-- **The pieces of lines one after the other.** The first line starts at `start`, and every line
feed counts. -/
theorem exists_ofLines? {s : Selection} (h : s.start ≤ s.stop) {ls : List (List Char)} :
    (∀ l ∈ ls, '\n' ∉ l) → ∀ start, ∃ rows, ofLines? s start ls = some rows ∧
      rows.map (fun ps => ps.flatMap Piece.text) = ls ∧
      sheet rows = (['\n'].intercalate ls).mapIdx fun i c => ⟨c, s.paintAt (start + i) c⟩ := by
  induction ls with
  | nil => exact fun _ start => ⟨[], rfl, rfl, rfl⟩
  | cons l ls ih =>
    intro hfeed start
    obtain ⟨hl, hls⟩ := List.forall_mem_cons.mp hfeed
    obtain ⟨ps, hps, hcells⟩ := exists_ofLine? h start l
    obtain ⟨rows, hrows, htext, hsheet⟩ := ih hls (start + l.length + 1)
    have hline : ps.flatMap Piece.text = l := by
      rw [← map_char_lineCells, hcells]
      exact List.ext_getElem (by simp) fun i _ _ => by simp
    -- in the line itself there is no line feed to leave out
    have hpaint : lineCells ps = l.mapIdx fun i c => ⟨c, s.paintAt (start + i) c⟩ := by
      rw [hcells]
      refine List.ext_getElem (by simp) fun i hi _ => ?_
      rw [List.length_mapIdx] at hi
      have hne : l[i] ≠ '\n' := fun hc => hl (hc ▸ List.getElem_mem hi)
      simp only [List.getElem_mapIdx, Selection.paintAt, hne, ne_eq, not_false_eq_true, true_and]
    refine ⟨ps :: rows, by simp only [ofLines?, hps, hrows], ?_, ?_⟩
    · rw [List.map_cons, hline, htext]
    · cases ls with
      | nil =>
        obtain rfl : rows = [] := List.map_eq_nil_iff.mp htext
        rw [sheet, List.map_singleton, List.intercalate_singleton, List.intercalate_singleton,
          hpaint]
      | cons l' ls =>
        have hne : rows.map lineCells ≠ [] := by
          intro hnil
          rw [List.map_eq_nil_iff.mp hnil] at htext
          cases htext
        rw [sheet, List.map_cons, List.intercalate_cons_of_ne_nil hne, List.intercalate_cons_cons,
          List.append_assoc, List.append_assoc, List.mapIdx_append, hpaint, List.singleton_append,
          List.singleton_append, List.mapIdx_cons]
        -- behind the line feed the offsets are those that the other lines were cut with
        have hnext : ∀ i, start + (i + 1 + l.length) = start + l.length + 1 + i := fun i => by omega
        simp only [hnext]
        rw [← hsheet, Selection.paintAt, if_neg fun hfeed => hfeed.1 rfl]
        rfl

end Piece

open Screen

/-- **Highlighting shows the text and selects the selection.**  A selection that does not end before
it starts, be it past the end of the text, cuts the text into pieces.  Joined with line feeds they
are the text again, and a character that is not a line feed is in a selected piece if and only if
its offset is in the selection. -/
theorem highlight_shows_selection (cs : List Char) {s : Selection} (h : s.start ≤ s.stop) :
    ∃ rows, highlight? cs s = some rows ∧
      ['\n'].intercalate (rows.map fun ps => ps.flatMap Piece.text) = cs ∧
      ∀ i c, cs[i]? = some c → c ≠ '\n' →
        ((sheet rows)[i]? = some ⟨c, .selected⟩ ↔ s.start ≤ i ∧ i < s.stop) := by
  have hjoin : ['\n'].intercalate (Text.lines cs) = cs := by
    rw [Text.lines_eq_splitOn]
    exact List.intercalate_splitOn '\n'
  have hfeed : ∀ l ∈ Text.lines cs, '\n' ∉ l := by
    intro l hl
    obtain ⟨line, hline⟩ := List.mem_iff_getElem?.mp hl
    obtain ⟨-, -, -, -, -, -, hfeed⟩ := Text.exists_line (Text.lt_of_getElem?_lines hline) hline
    exact hfeed
  obtain ⟨rows, hrows, htext, hsheet⟩ := Piece.exists_ofLines? h hfeed 0
  refine ⟨rows, hrows, htext.symm ▸ hjoin, fun i c hc hne => ?_⟩
  rw [hsheet, hjoin, List.getElem?_mapIdx, hc, Option.map_some, Option.some.injEq, Cell.mk.injEq,
    Selection.paintAt, Nat.zero_add]
  simp only [hne, ne_eq, not_false_eq_true, true_and, ite_eq_left_iff, reduceCtorEq, imp_false,
    not_not]

/-- A selection from the middle of a line past the end of the text, over an empty line. -/
theorem highlight_shows_selection_past_end :
    let cs := "ab\n\nλc\n".toList
    let s : Selection := ⟨1, 99, 1⟩
    let rows : List (List Piece) := [[⟨['a'], false⟩, ⟨['b'], true⟩], [], [⟨['λ', 'c'], true⟩], []]
    s.start ≤ s.stop ∧ highlight? cs s = some rows ∧
      ['\n'].intercalate (rows.map fun ps => ps.flatMap Piece.text) = cs ∧
      ((sheet rows)[0]? = some ⟨'a', .selected⟩ ↔ 1 ≤ 0 ∧ 0 < 99) ∧
      ((sheet rows)[5]? = some ⟨'c', .selected⟩ ↔ 1 ≤ 5 ∧ 5 < 99) := by
  intro cs s rows
  have hle : s.start ≤ s.stop := by decide
  have hrows : highlight? cs s = some rows := by decide
  obtain ⟨rows', hrows', htext, hpaint⟩ := highlight_shows_selection cs hle
  obtain rfl : rows = rows' := Option.some.inj (hrows.symm.trans hrows')
  exact ⟨hle, hrows, htext, hpaint 0 'a' (by decide) (by decide),
    hpaint 5 'c' (by decide) (by decide)⟩

end SexpEdit
