/-
Lines and columns.

`Text.advance` walks a text and counts; `Text.lineStarts` lists where the lines start, and the line
of an offset is looked up there; `Text.lines` cuts the text apart.  They are three views of the same
lines.

* `advance_cases` — behind a line feed a place does not depend on the column before the text;
* `lt_iff_lineColumn_lt` — offsets are in the order of their lines and columns;
* `lineColumn_line`, `startOf_add_column` — an offset is its column away from the start of its line;
* `lineColumn_startOf` — a line starts at its column zero;
* `getElem?_lines` — a line is what stands between its start and the next line feed;
* `offsetOf_of_getElem?` — a column of a line is looked for as far from its start as the line goes.
-/
import SexpEdit.Proofs.LineStart
import SexpEdit.Text.Lines

namespace SexpEdit.Text

/-! ### Places -/

theorem advance_append (place : Nat × Nat) (cs ds : List Char) :
    advance place (cs ++ ds) = advance (advance place cs) ds := by
  induction cs generalizing place with
  | nil => rfl
  | cons c cs ih => exact ih _

/-- Every line feed that `advance` passes leads to the next line. -/
theorem line_advance (place : Nat × Nat) (cs : List Char) :
    (advance place cs).1 = place.1 + cs.count '\n' := by
  induction cs generalizing place with
  | nil => rfl
  | cons c cs ih =>
    rw [advance, ih]
    by_cases hc : c = '\n'
    · rw [if_pos hc, hc, List.count_cons_self]
      omega
    · rw [if_neg hc, List.count_cons_of_ne hc]

theorem line_le_advance (place : Nat × Nat) (cs : List Char) : place.1 ≤ (advance place cs).1 := by
  rw [line_advance]
  exact Nat.le_add_right _ _

theorem line_lt_advance {cs : List Char} (h : '\n' ∈ cs) (place : Nat × Nat) :
    place.1 < (advance place cs).1 := by
  rw [line_advance]
  exact Nat.lt_add_of_pos_right (List.count_pos_iff.mpr h)

/-- Without a line feed the column grows with the text.  Behind one the place does not depend on the
column that the text started at. -/
theorem advance_cases (cs : List Char) (line : Nat) :
    (∀ column, advance (line, column) cs = (line, column + cs.length)) ∨
      ∃ place, line < place.1 ∧ ∀ column, advance (line, column) cs = place := by
  induction cs with
  | nil => exact .inl fun _ => rfl
  | cons c cs ih =>
    by_cases hc : c = '\n'
    · refine .inr ⟨advance (line + 1, 0) cs, line_le_advance (line + 1, 0) cs, fun column => ?_⟩
      rw [advance, if_pos hc]
    · rcases ih with h | ⟨place, hlt, h⟩
      · refine .inl fun column => ?_
        rw [advance, if_neg hc, h, List.length_cons]
        exact congrArg (Prod.mk line) (by omega)
      · refine .inr ⟨place, hlt, fun column => ?_⟩
        rw [advance, if_neg hc, h]

theorem advance_of_not_mem {cs : List Char} (h : '\n' ∉ cs) (line column : Nat) :
    advance (line, column) cs = (line, column + cs.length) := by
  induction cs generalizing column with
  | nil => rfl
  | cons c cs ih =>
    rw [List.mem_cons, not_or] at h
    rw [advance, if_neg (Ne.symm h.1), ih h.2, List.length_cons]
    exact congrArg (Prod.mk line) (by omega)

/-- Characters lead to a later line, or further on the same one. -/
theorem advance_lt {cs : List Char} (h : cs ≠ []) (place : Nat × Nat) :
    place.1 < (advance place cs).1 ∨
      place.1 = (advance place cs).1 ∧ place.2 < (advance place cs).2 := by
  obtain ⟨line, column⟩ := place
  rcases advance_cases cs line with hcs | ⟨place, hlt, hcs⟩
  · rw [hcs]
    exact .inr ⟨rfl, Nat.lt_add_of_pos_right (List.length_pos_iff.mpr h)⟩
  · rw [hcs]
    exact .inl hlt

/-- An offset is behind as many line feeds as its line, by `lineColumn`, is below the first. -/
theorem line_eq_count (cs : List Char) (offset : Nat) :
    (lineColumn cs offset).1 = (cs.take offset).count '\n' := by
  rw [lineColumn, line_advance, Nat.zero_add]

theorem lineColumn_append_left {as : List Char} (bs : List Char) {n : Nat} (h : n ≤ as.length) :
    lineColumn (as ++ bs) n = lineColumn as n := by
  rw [lineColumn, lineColumn, List.take_append_of_le_length h]

theorem lineColumn_append_right (as bs : List Char) (n : Nat) :
    lineColumn (as ++ bs) (as.length + n) = advance (advance (0, 0) as) (bs.take n) := by
  rw [lineColumn, List.take_length_add_append, advance_append]

/-- From one offset to a later one `advance` walks the characters between them. -/
theorem lineColumn_of_le (cs : List Char) {p q : Nat} (h : p ≤ q) :
    lineColumn cs q = advance (lineColumn cs p) ((cs.take q).drop p) := by
  have htake := List.take_append_drop p (cs.take q)
  rw [List.take_take, Nat.min_eq_left h] at htake
  rw [lineColumn, lineColumn, ← advance_append, htake]

theorem line_mono (cs : List Char) {p q : Nat} (h : p ≤ q) :
    (lineColumn cs p).1 ≤ (lineColumn cs q).1 := by
  rw [lineColumn_of_le cs h]
  exact line_le_advance _ _

theorem lineColumn_lt {cs : List Char} {p q : Nat} (h : p < q) (hq : q ≤ cs.length) :
    (lineColumn cs p).1 < (lineColumn cs q).1 ∨
      (lineColumn cs p).1 = (lineColumn cs q).1 ∧ (lineColumn cs p).2 < (lineColumn cs q).2 := by
  have hne : (cs.take q).drop p ≠ [] := by
    rw [Ne, List.drop_eq_nil_iff, List.length_take]
    omega
  rw [lineColumn_of_le cs (Nat.le_of_lt h)]
  exact advance_lt hne _

/-- What is before the start of `line` is on a line above. -/
theorem line_lt_of_lt {as : List Char} {line n : Nat} (has : advance (0, 0) as = (line, 0))
    (hn : n < as.length) : (lineColumn as n).1 < line := by
  have hend : lineColumn as as.length = (line, 0) := by
    rw [lineColumn, List.take_length, has]
  have hlt := lineColumn_lt hn (Nat.le_refl _)
  rw [hend] at hlt
  omega

/-- Offsets are in the order of their lines and columns, as `lineColumn` gives them. -/
theorem lt_iff_lineColumn_lt {cs : List Char} {p q : Nat} (hp : p ≤ cs.length)
    (hq : q ≤ cs.length) :
    p < q ↔ (lineColumn cs p).1 < (lineColumn cs q).1 ∨
      (lineColumn cs p).1 = (lineColumn cs q).1 ∧ (lineColumn cs p).2 < (lineColumn cs q).2 := by
  constructor
  · intro h
    exact lineColumn_lt h hq
  · intro h
    rcases Nat.lt_trichotomy p q with hlt | rfl | hgt
    · exact hlt
    · omega
    · have hback := lineColumn_lt hgt hp
      omega

/-! ### Where lines start -/

/-- A line that is not the first starts after a line feed. -/
theorem exists_of_mem_startsAfter {cs : List Char} {k s : Nat} (h : s ∈ startsAfter k cs) :
    ∃ as bs, cs = as ++ '\n' :: bs ∧ s = k + as.length + 1 := by
  induction cs generalizing k with
  | nil => cases h
  | cons c cs ih =>
    rw [startsAfter] at h
    by_cases hc : c = '\n'
    · rw [if_pos hc] at h
      rcases List.mem_cons.mp h with rfl | h
      · exact ⟨[], cs, by rw [hc]; rfl, rfl⟩
      · obtain ⟨as, bs, rfl, rfl⟩ := ih h
        exact ⟨c :: as, bs, rfl, by rw [List.length_cons]; omega⟩
    · rw [if_neg hc] at h
      obtain ⟨as, bs, rfl, rfl⟩ := ih h
      exact ⟨c :: as, bs, rfl, by rw [List.length_cons]; omega⟩

theorem lt_of_mem_startsAfter {cs : List Char} {k s : Nat} (h : s ∈ startsAfter k cs) : k < s := by
  obtain ⟨as, -, -, rfl⟩ := exists_of_mem_startsAfter h
  omega

theorem pairwise_startsAfter (cs : List Char) (k : Nat) :
    (startsAfter k cs).Pairwise (· < ·) := by
  induction cs generalizing k with
  | nil => exact .nil
  | cons c cs ih =>
    rw [startsAfter]
    by_cases hc : c = '\n'
    · rw [if_pos hc]
      refine .cons ?_ (ih (k + 1))
      intro s hs
      exact lt_of_mem_startsAfter hs
    · rw [if_neg hc]
      exact ih (k + 1)

/-- Lines start one after the other: `lineStarts` is strictly sorted. -/
theorem pairwise_lineStarts (cs : List Char) : (lineStarts cs).Pairwise (· < ·) := by
  refine .cons ?_ (pairwise_startsAfter cs 0)
  intro s hs
  exact lt_of_mem_startsAfter hs

/-- The line that `lineOf` finds for an offset is one of the text. -/
theorem lineOf_lt (cs : List Char) (offset : Nat) :
    lineOf (lineStarts cs) offset < (lineStarts cs).length := by
  have hle := (List.takeWhile_sublist (l := lineStarts cs) (· ≤ offset)).length_le
  have hpos : 0 < (lineStarts cs).length := Nat.succ_pos _
  rw [lineOf]
  omega

theorem startOf_lt {cs : List Char} {line line' : Nat} (hlt : line < line')
    (h : line' < (lineStarts cs).length) :
    startOf (lineStarts cs) line < startOf (lineStarts cs) line' := by
  have hlt' : line < (lineStarts cs).length := by omega
  rw [startOf, startOf, List.getElem?_eq_getElem h, List.getElem?_eq_getElem hlt']
  exact List.pairwise_iff_getElem.mp (pairwise_lineStarts cs) line line' hlt' h hlt

/-- A line starts with the text or after a line feed. -/
theorem exists_startOf (cs : List Char) (line : Nat) :
    ∃ as bs, cs = as ++ bs ∧ startOf (lineStarts cs) line = as.length ∧ EndsLine as := by
  by_cases h : line < (lineStarts cs).length
  · rw [startOf, List.getElem?_eq_getElem h]
    have hmem : (lineStarts cs)[line] ∈ lineStarts cs := List.getElem_mem h
    rcases List.mem_cons.mp hmem with hzero | hmem
    · exact ⟨[], cs, rfl, hzero, .inl rfl⟩
    · obtain ⟨as, bs, hcs, hstart⟩ := exists_of_mem_startsAfter hmem
      refine ⟨as ++ ['\n'], bs, by rw [hcs]; simp, ?_, .inr ⟨as, rfl⟩⟩
      show (lineStarts cs)[line] = _
      rw [hstart, List.length_append, List.length_singleton]
      omega
  · refine ⟨[], cs, rfl, ?_, .inl rfl⟩
    rw [startOf, List.getElem?_eq_none (by omega)]
    rfl

theorem startOf_le_length (cs : List Char) (line : Nat) :
    startOf (lineStarts cs) line ≤ cs.length := by
  obtain ⟨as, bs, htext, hlen, -⟩ := exists_startOf cs line
  rw [hlen, htext, List.length_append]
  omega

theorem lineOf_cons_of_lt {s t offset : Nat} {starts : List Nat} (hs : s ≤ offset)
    (ht : t ≤ offset) : lineOf (s :: t :: starts) offset = lineOf (t :: starts) offset + 1 := by
  rw [lineOf, lineOf, List.takeWhile_cons_of_pos (by simp [hs]),
    List.takeWhile_cons_of_pos (by simp [ht]), List.length_cons, List.length_cons]
  omega

/-- An offset `n` characters into a text that starts at the offset `k`, in a line that started at
`s`: what is looked up agrees with what is counted. -/
theorem advance_take_eq (cs : List Char) : ∀ (line : Nat) {k s column : Nat}, s + column = k → ∀ n,
    (advance (line, column) (cs.take n)).1 = line + lineOf (s :: startsAfter k cs) (k + n) ∧
      startOf (s :: startsAfter k cs) (lineOf (s :: startsAfter k cs) (k + n)) +
        (advance (line, column) (cs.take n)).2 = k + min n cs.length := by
  -- on the text, with the line in progress generalized
  induction cs with
  | nil =>
    intro line k s column hk n
    have hline : lineOf [s] (k + n) = 0 := by
      rw [lineOf, List.takeWhile_cons_of_pos (by simp; omega)]
      rfl
    rw [List.take_nil, startsAfter, hline]
    refine ⟨rfl, ?_⟩
    show s + column = k + min n 0
    omega
  | cons c cs ih =>
    intro line k s column hk n
    cases n with
    | zero =>
      have hline : lineOf (s :: startsAfter k (c :: cs)) (k + 0) = 0 := by
        rw [lineOf, List.takeWhile_cons_of_pos (by simp; omega)]
        cases hstarts : startsAfter k (c :: cs) with
        | nil => rfl
        | cons t starts =>
          have hlt := lt_of_mem_startsAfter (hstarts ▸ List.mem_cons_self : t ∈ _)
          rw [List.takeWhile_cons_of_neg (by simp; omega)]
          rfl
      rw [hline]
      refine ⟨rfl, ?_⟩
      show s + column = k + min 0 _
      omega
    | succ n =>
      have hn : k + (n + 1) = k + 1 + n := by omega
      have hmin : k + min (n + 1) (c :: cs).length = k + 1 + min n cs.length := by
        rw [List.length_cons]
        omega
      rw [List.take_succ_cons, advance, hn, hmin, startsAfter]
      by_cases hc : c = '\n'
      · rw [if_pos hc, if_pos hc, lineOf_cons_of_lt (by omega) (by omega)]
        obtain ⟨hline, hstart⟩ := ih (line + 1) (Nat.add_zero (k + 1)) n
        refine ⟨hline.trans (by omega), ?_⟩
        rw [← hstart]
        rfl
      · rw [if_neg hc, if_neg hc]
        exact ih line (by omega) n

/-- The line that `lineOf` looks up for an offset is the one that `lineColumn` counts. -/
theorem lineColumn_line (cs : List Char) (offset : Nat) :
    (lineColumn cs offset).1 = lineOf (lineStarts cs) offset := by
  have h := (advance_take_eq cs 0 (Nat.zero_add 0) offset).1
  rw [Nat.zero_add, Nat.zero_add] at h
  exact h

/-- An offset is its column away from the `startOf` its line. -/
theorem startOf_add_column (cs : List Char) (offset : Nat) :
    startOf (lineStarts cs) (lineColumn cs offset).1 + (lineColumn cs offset).2 =
      min offset cs.length := by
  have h := (advance_take_eq cs 0 (Nat.zero_add 0) offset).2
  rw [Nat.zero_add, Nat.zero_add] at h
  rw [lineColumn_line]
  exact h

theorem length_takeWhile_le_getElem {starts : List Nat} (h : starts.Pairwise (· < ·)) :
    ∀ {line : Nat} (hline : line < starts.length),
      (starts.takeWhile (· ≤ starts[line])).length = line + 1 := by
  induction h with
  | nil => exact fun hline => absurd hline (Nat.not_lt_zero _)
  | @cons s starts hs _ ih =>
    intro line hline
    cases line with
    | zero =>
      rw [List.getElem_cons_zero, List.takeWhile_cons_of_pos (by simp)]
      cases starts with
      | nil => rfl
      | cons t starts =>
        have hlt := hs t List.mem_cons_self
        rw [List.takeWhile_cons_of_neg (by simp; omega)]
        rfl
    | succ line =>
      have hline : line < starts.length := Nat.lt_of_succ_lt_succ hline
      have hlt := hs _ (List.getElem_mem hline)
      rw [List.getElem_cons_succ, List.takeWhile_cons_of_pos (by simp; omega), List.length_cons,
        ih hline]

/-- The `startOf` a line is its column zero. -/
theorem lineColumn_startOf {cs : List Char} {line : Nat} (h : line < (lineStarts cs).length) :
    lineColumn cs (startOf (lineStarts cs) line) = (line, 0) := by
  have hline : (lineColumn cs (startOf (lineStarts cs) line)).1 = line := by
    rw [lineColumn_line, lineOf, startOf, List.getElem?_eq_getElem h, Option.getD_some,
      length_takeWhile_le_getElem (pairwise_lineStarts cs) h]
    rfl
  have hcolumn := startOf_add_column cs (startOf (lineStarts cs) line)
  rw [hline] at hcolumn
  exact Prod.ext hline (by omega)

/-! ### Lines cut apart -/

/-- Where a line starts, the `lines` of a text come apart. -/
theorem exists_lines_append {as : List Char} : ∀ {line column last : Nat},
    advance (line, column) as = (last, 0) →
      ∃ above, line + above.length = last ∧ ∀ rest, lines (as ++ rest) = above ++ lines rest := by
  induction as with
  | nil =>
    intro line column last h
    cases h
    exact ⟨[], rfl, fun _ => rfl⟩
  | cons c as ih =>
    intro line column last h
    rw [advance] at h
    by_cases hc : c = '\n'
    · rw [if_pos hc] at h
      obtain ⟨above, hlength, hlines⟩ := ih h
      refine ⟨[] :: above, by rw [List.length_cons]; omega, fun rest => ?_⟩
      rw [List.cons_append, lines, if_pos hc, hlines]
      rfl
    · rw [if_neg hc] at h
      obtain ⟨above, hlength, hlines⟩ := ih h
      cases above with
      | nil =>
        -- the column is not zero yet, so a line feed is still to come
        rcases advance_cases as line with hall | ⟨place, hlt, hall⟩
        · have hzero : column + 1 + as.length = 0 := congrArg Prod.snd ((hall _).symm.trans h)
          omega
        · rw [hall] at h
          rw [h] at hlt
          exact absurd hlength (Nat.ne_of_lt hlt)
      | cons l above =>
        refine ⟨(c :: l) :: above, hlength, fun rest => ?_⟩
        rw [List.cons_append, lines, if_neg hc, hlines]
        rfl

/-- The `lines` below the one in which two texts meet are those of the second text. -/
theorem drop_lines_append (as rest : List Char) (n : Nat) :
    (lines (as ++ rest)).drop (as.count '\n' + (n + 1)) = (lines rest).drop (n + 1) := by
  induction as with
  | nil =>
    rw [List.count_nil, Nat.zero_add]
    rfl
  | cons c as ih =>
    rw [List.cons_append, lines]
    by_cases hc : c = '\n'
    · rw [if_pos hc, hc, List.count_cons_self, Nat.add_right_comm, List.drop_succ_cons, ih]
    · rw [if_neg hc, List.count_cons_of_ne hc, ← ih, ← Nat.add_assoc]
      -- the first line has one character more, and it is dropped
      cases lines (as ++ rest) with
      | nil => simp only [List.drop_succ_cons, List.drop_nil]
      | cons l below => rfl

/-- What a line starts with is before the first line of the rest. -/
theorem exists_lines_cons {bs : List Char} (h : '\n' ∉ bs) (rest : List Char) :
    ∃ l below, lines rest = l :: below ∧ lines (bs ++ rest) = (bs ++ l) :: below := by
  induction bs with
  | nil =>
    cases hlines : lines rest with
    | nil => cases rest with
      | nil => cases hlines
      | cons c rest =>
        rw [lines] at hlines
        split at hlines
        · cases hlines
        · split at hlines
          · cases hlines
          · cases hlines
    | cons l below => exact ⟨l, below, rfl, hlines⟩
  | cons b bs ih =>
    rw [List.mem_cons, not_or] at h
    obtain ⟨l, below, hrest, hlines⟩ := ih h.2
    refine ⟨l, below, hrest, ?_⟩
    rw [List.cons_append, lines, if_neg (Ne.symm h.1), hlines]
    rfl

theorem head?_lines (cs : List Char) : (lines cs).head? = some (cs.takeWhile (· != '\n')) := by
  induction cs with
  | nil => rfl
  | cons c cs ih =>
    rw [lines]
    by_cases hc : c = '\n'
    · rw [if_pos hc, hc]
      rfl
    · rw [if_neg hc, List.takeWhile_cons_of_pos (by simpa using hc)]
      cases hlines : lines cs with
      | nil =>
        rw [hlines] at ih
        cases ih
      | cons l below =>
        rw [hlines] at ih
        exact congrArg (fun l => some (c :: l)) (Option.some.inj ih)

/-- A line is what stands between its start and the next line feed. -/
theorem getElem?_lines {cs : List Char} {line : Nat} (h : line < (lineStarts cs).length) :
    (lines cs)[line]? =
      some ((cs.drop (startOf (lineStarts cs) line)).takeWhile (· != '\n')) := by
  obtain ⟨above, hlength, hlines⟩ := exists_lines_append (lineColumn_startOf h)
  have hsplit := hlines (cs.drop (startOf (lineStarts cs) line))
  rw [List.take_append_drop] at hsplit
  rw [hsplit, List.getElem?_append_right (by omega), ← head?_lines, List.head?_eq_getElem?]
  congr 1
  omega

/-- There are as many `lines` as `lineStarts`. -/
theorem length_lines (cs : List Char) : (lines cs).length = (lineStarts cs).length := by
  have hstarts : ∀ k, (lines cs).length = (startsAfter k cs).length + 1 := by
    induction cs with
    | nil => exact fun _ => rfl
    | cons c cs ih =>
      intro k
      rw [lines, startsAfter]
      by_cases hc : c = '\n'
      · rw [if_pos hc, if_pos hc, List.length_cons, List.length_cons, ih (k + 1)]
      · rw [if_neg hc, if_neg hc, ← ih (k + 1)]
        cases hlines : lines cs with
        | nil =>
          have hlength := ih k
          rw [hlines] at hlength
          cases hlength
        | cons l below => rfl
  rw [hstarts 0, lineStarts, List.length_cons]

theorem lt_of_getElem?_lines {cs l : List Char} {line : Nat} (h : (lines cs)[line]? = some l) :
    line < (lineStarts cs).length := by
  rw [← length_lines]
  exact (List.getElem?_eq_some_iff.mp h).1

/-- The rest of a line from one of its columns on is the text there up to the next line feed. -/
theorem takeWhile_drop_startOf {cs l : List Char} {line column : Nat}
    (hl : (lines cs)[line]? = some l) (hcolumn : column ≤ l.length) :
    (cs.drop (startOf (lineStarts cs) line + column)).takeWhile (· != '\n') = l.drop column := by
  rw [getElem?_lines (lt_of_getElem?_lines hl)] at hl
  obtain rfl := Option.some.inj hl
  generalize hrest : cs.drop (startOf (lineStarts cs) line) = rest at hcolumn ⊢
  have hsplit : rest.drop column = (rest.takeWhile (· != '\n')).drop column ++
      rest.dropWhile (· != '\n') := by
    rw [← List.drop_append_of_le_length hcolumn, List.takeWhile_append_dropWhile]
  have hend : (rest.dropWhile (· != '\n')).takeWhile (· != '\n') = [] := by
    cases hdrop : rest.dropWhile (· != '\n') with
    | nil => rfl
    | cons c tail =>
      have hc := List.head?_dropWhile_not (· != '\n') rest
      rw [hdrop] at hc
      exact List.takeWhile_cons_of_neg (by simpa using hc)
  rw [← List.drop_drop, hrest, hsplit, List.takeWhile_append_of_pos, hend, List.append_nil]
  intro c hc
  exact of_mem_takeWhile (p := (· != '\n')) (List.mem_of_mem_drop hc)

/-- The column of an offset is in its line, or at the end of it. -/
theorem column_le_length {cs l : List Char} {offset : Nat}
    (hl : (lines cs)[(lineColumn cs offset).1]? = some l) :
    (lineColumn cs offset).2 ≤ l.length := by
  have hline := lt_of_getElem?_lines hl
  have hplace := startOf_add_column cs offset
  rw [getElem?_lines hline] at hl
  obtain rfl := Option.some.inj hl
  have hstart := lineColumn_startOf hline
  generalize startOf (lineStarts cs) (lineColumn cs offset).1 = s at hplace hstart ⊢
  -- there is no line feed between the start of the line and the offset
  have hwalk := lineColumn_of_le cs (show s ≤ offset by omega)
  rw [hstart, List.drop_take] at hwalk
  have hfeed : '\n' ∉ (cs.drop s).take (offset - s) := by
    intro hmem
    have hlt := line_lt_advance hmem ((lineColumn cs offset).1, 0)
    rw [← hwalk] at hlt
    exact Nat.lt_irrefl _ hlt
  have hprefix : (cs.drop s).take (offset - s) <+: (cs.drop s).takeWhile (· != '\n') := by
    nth_rewrite 2 [← List.take_append_drop (offset - s) (cs.drop s)]
    rw [List.takeWhile_append_of_pos]
    · exact List.prefix_append _ _
    · intro c hc
      rw [bne_iff_ne]
      rintro rfl
      exact hfeed hc
  have hle := hprefix.length_le
  rw [List.length_take, List.length_drop] at hle
  omega

/-- A text is what is above a line, the line, and what comes after it. -/
theorem exists_line {cs l : List Char} {line : Nat} (h : line < (lineStarts cs).length)
    (hl : (lines cs)[line]? = some l) :
    ∃ as rest, cs = as ++ (l ++ rest) ∧ startOf (lineStarts cs) line = as.length ∧ EndsLine as ∧
      advance (0, 0) as = (line, 0) ∧ '\n' ∉ l := by
  obtain ⟨as, bs, hcs, hstart, hends⟩ := exists_startOf cs line
  have hplace := lineColumn_startOf h
  rw [getElem?_lines h, hstart, hcs, List.drop_left] at hl
  obtain rfl := Option.some.inj hl
  refine ⟨as, bs.dropWhile (· != '\n'), ?_, hstart, hends, ?_, ?_⟩
  · rw [List.takeWhile_append_dropWhile]
    exact hcs
  · rwa [hstart, hcs, lineColumn, List.take_left] at hplace
  · intro hmem
    exact absurd (of_mem_takeWhile hmem) (by decide)

/-- The columns of a line are the characters from its `startOf` on. -/
theorem lineColumn_in_line {cs l : List Char} {line column : Nat}
    (h : line < (lineStarts cs).length) (hl : (lines cs)[line]? = some l)
    (hcolumn : column ≤ l.length) :
    startOf (lineStarts cs) line + column ≤ cs.length ∧
      lineColumn cs (startOf (lineStarts cs) line + column) = (line, column) := by
  obtain ⟨as, rest, hcs, hstart, -, has, hfeed⟩ := exists_line h hl
  have hfeed : '\n' ∉ l.take column := fun hmem => hfeed (List.mem_of_mem_take hmem)
  rw [hstart]
  refine ⟨?_, ?_⟩
  · rw [hcs, List.length_append, List.length_append]
    omega
  · rw [hcs, lineColumn_append_right, has, List.take_append_of_le_length hcolumn,
      advance_of_not_mem hfeed, List.length_take, Nat.min_eq_left hcolumn, Nat.zero_add]

/-! ### Back from lines and columns -/

/-- The `lines` of a text are what line feeds separate. -/
theorem lines_eq_splitOn (cs : List Char) : lines cs = cs.splitOn '\n' := by
  induction cs with
  | nil => rfl
  | cons c cs ih =>
    rw [lines, List.splitOn_cons_eq_if_modifyHead, ← ih]
    by_cases hc : c = '\n'
    · rw [if_pos hc, if_pos (by simpa using hc)]
    · rw [if_neg hc, if_neg (by simpa using hc)]
      cases hlines : lines cs with
      | nil => exact absurd (ih.symm.trans hlines) (List.splitOn_ne_nil _ _)
      | cons l ls => rfl

/-- The walk `offsetIn` along the lines of a text finds each line where it starts. -/
theorem offsetIn_lines (column : Nat) (cs : List Char) : ∀ (start line : Nat),
    offsetIn start column (lines cs) line = (lines cs)[line]?.map fun l =>
      startOf (start :: startsAfter start cs) line + min column l.length := by
  induction cs with
  | nil =>
    intro start line
    cases line with
    | zero => rfl
    | succ line => simp [lines, offsetIn]
  | cons c cs ih =>
    intro start line
    by_cases hc : c = '\n'
    · rw [lines, startsAfter, if_pos hc, if_pos hc]
      cases line with
      | zero => rfl
      | succ line => exact ih (start + 1) line
    · have hfeed : '\n' ∉ [c] := by simpa [eq_comm] using hc
      obtain ⟨l, ls, hlines, hcons⟩ := exists_lines_cons hfeed cs
      rw [List.singleton_append] at hcons
      have ih := ih (start + 1) line
      rw [hlines] at ih
      rw [hcons, startsAfter, if_neg hc]
      cases line with
      | zero => rfl
      | succ line =>
        -- the first line of what follows starts one further and is one shorter
        have hstart : start + ([c] ++ l).length + 1 = start + 1 + l.length + 1 := by
          rw [List.length_append, List.length_singleton]
          omega
        rw [offsetIn, hstart]
        exact ih

theorem offsetOf_of_getElem? {cs l : List Char} {line : Nat} (hl : (lines cs)[line]? = some l)
    (column : Nat) :
    offsetOf cs line column = startOf (lineStarts cs) line + min column l.length := by
  rw [offsetOf, offsetIn_lines, hl]
  rfl

theorem offsetOf_of_getElem?_eq_none {cs : List Char} {line : Nat} (hl : (lines cs)[line]? = none)
    (column : Nat) : offsetOf cs line column = cs.length := by
  rw [offsetOf, offsetIn_lines, hl]
  rfl

theorem offsetOf_le (cs : List Char) (line column : Nat) :
    offsetOf cs line column ≤ cs.length := by
  cases hl : (lines cs)[line]? with
  | none => exact Nat.le_of_eq (offsetOf_of_getElem?_eq_none hl column)
  | some l =>
    rw [offsetOf_of_getElem? hl]
    exact (lineColumn_in_line (lt_of_getElem?_lines hl) hl (Nat.min_le_right _ _)).1

end SexpEdit.Text
