/-
Places in a text.

A place is a line and a column.  `Text.lineColumn` counts characters up to an offset, and
`Text.offsetOf` adds up the lines above; they undo each other, but for an offset past the end, which
has the place of the end, and for a column past the end of its line, which means the end of the
line.  The moves of the cursor by lines rest on both of them.

* `Text.offsetOf_lineColumn`, `Text.lineColumn_offsetOf` — the two ways there and back;
* `CursorMove.moves_by_places` — where every plain move goes.
-/
import SexpEdit.Proofs.Typing

namespace SexpEdit

namespace Text

/-- The line that `lineColumn` gives for an offset is one of the text. -/
theorem exists_getElem?_lineColumn (cs : List Char) (offset : Nat) :
    ∃ l, (lines cs)[(lineColumn cs offset).1]? = some l := by
  refine ⟨_, List.getElem?_eq_getElem ?_⟩
  rw [length_lines, lineColumn_line]
  exact lineOf_lt cs offset

theorem offsetOf_lineColumn (cs : List Char) (offset : Nat) :
    offsetOf cs (lineColumn cs offset).1 (lineColumn cs offset).2 = min offset cs.length := by
  obtain ⟨l, hl⟩ := exists_getElem?_lineColumn cs offset
  rw [offsetOf_of_getElem? hl, Nat.min_eq_left (column_le_length hl)]
  exact startOf_add_column cs offset

theorem lineColumn_offsetOf {cs l : List Char} {line : Nat} (hl : (lines cs)[line]? = some l)
    (column : Nat) : lineColumn cs (offsetOf cs line column) = (line, min column l.length) := by
  rw [offsetOf_of_getElem? hl]
  exact (lineColumn_in_line (lt_of_getElem?_lines hl) hl (Nat.min_le_right _ _)).2

end Text

namespace CursorMove

open Text

theorem lineColumn_target_up {cs l : List Char} {s : Selection} {line column : Nat}
    (hplace : lineColumn cs s.cursor = (line + 1, column)) (hl : (lines cs)[line]? = some l) :
    lineColumn cs (up.target cs s) = (line, min column l.length) := by
  rw [← lineColumn_offsetOf hl]
  simp only [target, hplace]
  rfl

theorem lineColumn_target_down {cs l : List Char} {s : Selection} {line column : Nat}
    (hplace : lineColumn cs s.cursor = (line, column)) (hl : (lines cs)[line + 1]? = some l) :
    lineColumn cs (down.target cs s) = (line + 1, min column l.length) := by
  rw [← lineColumn_offsetOf hl]
  simp only [target, hplace]

/-- **Offsets and places answer to each other, and moves go by them.**  An offset is found again
from its line and column, cut to the text, and so are a line of the text and a column, cut to the
line.  From a cursor in the text every move leads into the text; up and down lead to the next line
there, if there is one, and to the same column as far as that line goes. -/
theorem moves_by_places (cs : List Char) :
    (∀ offset, offsetOf cs (lineColumn cs offset).1 (lineColumn cs offset).2 =
      min offset cs.length) ∧
    (∀ line l, (cs.splitOn '\n')[line]? = some l → ∀ column,
      lineColumn cs (offsetOf cs line column) = (line, min column l.length)) ∧
    ∀ s : Selection, s.cursor ≤ cs.length →
      (∀ m : CursorMove, m.target cs s ≤ cs.length) ∧
      (∀ line column l, lineColumn cs s.cursor = (line + 1, column) →
        (cs.splitOn '\n')[line]? = some l →
          lineColumn cs (up.target cs s) = (line, min column l.length)) ∧
      ∀ line column l, lineColumn cs s.cursor = (line, column) →
        (cs.splitOn '\n')[line + 1]? = some l →
          lineColumn cs (down.target cs s) = (line + 1, min column l.length) := by
  rw [← lines_eq_splitOn]
  refine ⟨offsetOf_lineColumn cs, fun line l hl => lineColumn_offsetOf hl, fun s hs => ⟨?_, ?_, ?_⟩⟩
  · exact fun m => target_le hs m
  · exact fun line column l hplace hl => lineColumn_target_up hplace hl
  · exact fun line column l hplace hl => lineColumn_target_down hplace hl

/-- The line above the cursor is empty, and the one below has a single character. -/
theorem moves_by_places_short :
    let cs := "λ(a\n\n  bcd)\nδ\n".toList
    let s := Selection.caret 8
    lineColumn cs 99 = (4, 0) ∧ offsetOf cs 4 0 = 14 ∧
      lineColumn cs (offsetOf cs 0 7) = (0, min 7 "λ(a".toList.length) ∧
      s.cursor ≤ cs.length ∧ lineColumn cs s.cursor = (2, 3) ∧ lineEnd.target cs s ≤ cs.length ∧
      lineColumn cs (up.target cs s) = (1, 0) ∧ lineColumn cs (down.target cs s) = (3, 1) := by
  intro cs s
  obtain ⟨hoffset, hplace, hmoves⟩ := moves_by_places cs
  have hend : lineColumn cs 99 = (4, 0) := by decide
  have hcursor : s.cursor ≤ cs.length := by decide
  have hat : lineColumn cs s.cursor = (2, 3) := by decide
  obtain ⟨htarget, hup, hdown⟩ := hmoves s hcursor
  have hback := hoffset 99
  rw [hend] at hback
  exact ⟨hend, hback, hplace 0 "λ(a".toList (by decide) 7, hcursor, hat, htarget lineEnd,
    hup 1 3 [] hat (by decide), hdown 2 3 ['δ'] hat (by decide)⟩

end CursorMove

end SexpEdit
