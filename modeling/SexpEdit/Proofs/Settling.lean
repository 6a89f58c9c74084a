/-
Indentation settles.

A pass over some lines looks at columns of the text as it was, and adds the shifts of the lines that
it has moved.  These are the columns of the text that the pass leaves: tokens move with their lines,
and what a line is aligned with starts on a line above it.  A second pass over the same lines finds
the same collections around them, and every line in the column that it asks for.

* `Reindent.lineEdits_at` — the edit of a line, given those of the lines above;
* `Document.targetColumn_pair` — the column that a line is to start at is the same for both passes;
* `Document.lineEdit?_settled` — the second pass leaves every line alone;
* `Document.indent_settles` — so it makes no change.
-/
import SexpEdit.Proofs.Likeness

namespace SexpEdit

open Text
open Token (scan spots Fresh)

namespace Text

/-- The blanks that the line `l` starts with, when more than a line end comes after them. -/
def indentOf? (l : List Char) : Option (List Char) :=
  let blanks := l.takeWhile fun c => c == ' ' || c == '\t'
  match l.drop blanks.length with
  | [] => none
  | c :: _ => if c = '\r' then none else some blanks

theorem takeWhile_blanks {bs t : List Char} (hbs : ∀ b ∈ bs, b = ' ' ∨ b = '\t')
    (ht : ∀ c ∈ t.head?, c ≠ ' ' ∧ c ≠ '\t') :
    (bs ++ t).takeWhile (fun c => c == ' ' || c == '\t') = bs := by
  rw [List.takeWhile_append_of_pos (by simpa using hbs)]
  cases t with
  | nil => exact List.append_nil bs
  | cons c t =>
    rw [List.takeWhile_cons_of_neg (by simpa using ht c rfl), List.append_nil]

/-- A text is blanks and what comes after them. -/
theorem exists_blanks (cs : List Char) :
    ∃ bs t, cs = bs ++ t ∧ (∀ b ∈ bs, b = ' ' ∨ b = '\t') ∧
      ∀ c ∈ t.head?, c ≠ ' ' ∧ c ≠ '\t' := by
  let p (c : Char) : Bool := c == ' ' || c == '\t'
  refine ⟨cs.takeWhile p, cs.dropWhile p, List.takeWhile_append_dropWhile.symm, ?_, ?_⟩
  · intro b hb
    simpa [p] using of_mem_takeWhile hb
  · intro c hc
    have hhead := List.head?_dropWhile_not p cs
    rw [hc] at hhead
    simpa [p] using hhead

theorem indentOf?_append {bs t : List Char} (hbs : ∀ b ∈ bs, b = ' ' ∨ b = '\t')
    (ht : ∀ c ∈ t.head?, c ≠ ' ' ∧ c ≠ '\t') :
    indentOf? (bs ++ t) = t.head?.bind fun c => if c = '\r' then none else some bs := by
  rw [indentOf?, takeWhile_blanks hbs ht, List.drop_left]
  cases t with
  | nil => rfl
  | cons c t => rfl

theorem indentOf?_eq_some {l bs : List Char} (h : indentOf? l = some bs) :
    (∀ b ∈ bs, b = ' ' ∨ b = '\t') ∧
      ∃ c rest, l = bs ++ c :: rest ∧ (c ≠ ' ' ∧ c ≠ '\t') ∧ c ≠ '\r' := by
  obtain ⟨as, t, rfl, has, ht⟩ := exists_blanks l
  rw [indentOf?_append has ht] at h
  cases t with
  | nil => cases h
  | cons c t =>
    rw [List.head?_cons, Option.bind_some] at h
    split at h
    · cases h
    · rename_i hreturn
      cases h
      exact ⟨has, c, t, rfl, ht c rfl, hreturn⟩

/-- Other blanks on a line that has more than blanks are its `indentOf?` then. -/
theorem indentOf?_respace {l bs bs' : List Char} (h : indentOf? l = some bs)
    (hbs' : ∀ b ∈ bs', b = ' ' ∨ b = '\t') : indentOf? (bs' ++ l.drop bs.length) = some bs' := by
  obtain ⟨-, c, rest, rfl, hblank, hreturn⟩ := indentOf?_eq_some h
  have hhead : ∀ d ∈ (c :: rest).head?, d ≠ ' ' ∧ d ≠ '\t' := by
    rintro d ⟨⟩
    exact hblank
  rw [List.drop_left, indentOf?_append hbs' hhead, List.head?_cons, Option.bind_some,
    if_neg hreturn]

end Text

namespace Reindent

/-- The `lineEdit?` of a line that starts outside of strings. -/
theorem lineEdit?_eq {d : Document} {width line : Nat} {edits : List LineEdit} {l : List Char}
    (hline : line < (lineStarts d.text).length) (hl : (lines d.text)[line]? = some l)
    (hstring : startsInString d (startOf (lineStarts d.text) line) = false) :
    lineEdit? d (lineStarts d.text) width edits line =
      (indentOf? l).bind fun bs =>
        let start := startOf (lineStarts d.text) line
        let after := targetColumn d (lineStarts d.text) edits (start + bs.length) width
        if after ≠ bs.length || bs.any (· == '\t') then some ⟨line, start, bs.length, after⟩
        else none := by
  rw [getElem?_lines hline] at hl
  obtain rfl := Option.some.inj hl
  obtain ⟨bs, t, hrest, hbs, ht⟩ :=
    exists_blanks (d.text.drop (startOf (lineStarts d.text) line))
  have hfeed : ∀ b ∈ bs, (b != '\n') = true := by
    intro b hb
    rw [bne_iff_ne]
    rintro rfl
    exact not_mem_of_blanks hbs hb
  rw [lineEdit?]
  dsimp only
  rw [hstring, if_neg Bool.false_ne_true, hrest, takeWhile_blanks hbs ht, List.drop_left,
    List.takeWhile_append_of_pos hfeed]
  -- the line ends with the blanks when nothing or a line feed comes after them
  cases t with
  | nil =>
    rw [List.takeWhile_nil, indentOf?_append hbs (by simp)]
    rfl
  | cons c t =>
    by_cases hc : c = '\n'
    · rw [List.takeWhile_cons_of_neg (by simp [hc]), indentOf?_append hbs (by simp)]
      simp [hc]
    · rw [List.takeWhile_cons_of_pos (by simpa using hc),
        indentOf?_append hbs (by simpa using ht c rfl)]
      by_cases hreturn : c = '\r'
      · simp [hreturn]
      · simp [hc, hreturn]

theorem lineEdits_add (d : Document) (starts : List Nat) (width m n : Nat) :
    ∀ (above : List LineEdit) (line : Nat), lineEdits d starts width above line (m + n) =
      lineEdits d starts width (lineEdits d starts width above line m) (line + m) n := by
  induction m with
  | zero =>
    intro above line
    rw [Nat.zero_add]
    rfl
  | succ m ih =>
    intro above line
    have hline : line + (m + 1) = line + 1 + m := by omega
    rw [Nat.succ_add, lineEdits, lineEdits, hline]
    split
    · exact ih _ _
    · exact ih _ _

/-- A pass of `lineEdits` makes the edit of its first line, and then those of lines below it. -/
theorem exists_lineEdits_succ (d : Document) (starts : List Nat) (width n : Nat)
    (above : List LineEdit) (line : Nat) :
    ∃ below, lineEdits d starts width above line (n + 1) =
        above ++ ((lineEdit? d starts width above line).toList ++ below) ∧
      ∀ e ∈ below, line < e.line := by
  rw [lineEdits]
  rcases lineEdit? d starts width above line with _ | e
  · obtain ⟨below, hbelow, -, hall⟩ := exists_lineEdits d starts width n above (line + 1)
    exact ⟨below, hbelow, fun e he => (hall e he).1⟩
  · obtain ⟨below, hbelow, -, hall⟩ := exists_lineEdits d starts width n (above ++ [e]) (line + 1)
    exact ⟨below, hbelow.trans (List.append_assoc above [e] below), fun e he => (hall e he).1⟩

/-- Among the `lineEdits` the edit of a line is the one that it has below the edits of the lines
above, and these are all the edits of lines above. -/
theorem lineEdits_at (d : Document) (starts : List Nat) (width : Nat) {first count line : Nat}
    (hge : first ≤ line) (hlt : line < first + count) :
    ∃ above, (lineEdits d starts width [] first count).find? (fun e => e.line == line) =
        lineEdit? d starts width above line ∧
      ∀ line' < line, shiftOf (lineEdits d starts width [] first count) line' =
        shiftOf above line' := by
  obtain ⟨m, rfl⟩ := Nat.exists_eq_add_of_le hge
  obtain ⟨n, rfl⟩ : ∃ n, count = m + (n + 1) := ⟨count - m - 1, by omega⟩
  obtain ⟨above, habove, -, hall⟩ := exists_lineEdits d starts width m [] first
  rw [List.nil_append] at habove
  obtain ⟨below, hbelow, hafter⟩ := exists_lineEdits_succ d starts width n above (first + m)
  have hbefore : ∀ e ∈ above, e.line ≠ first + m := fun e he => Nat.ne_of_lt (hall e he).2.1
  refine ⟨above, ?_⟩
  rw [lineEdits_add, habove, hbelow]
  rcases hedit : lineEdit? d starts width above (first + m) with _ | e
  · refine ⟨?_, fun line' hline' => ?_⟩
    · rw [Option.toList_none, List.nil_append, find?_append_of_ne above, find?_eq_none hbefore]
      exact fun e he => Nat.ne_of_gt (hafter e he)
    · rw [Option.toList_none, List.nil_append, shiftOf, shiftOf, find?_append_of_ne above]
      exact fun e he => Nat.ne_of_gt (hline'.trans (hafter e he))
  · have hline := (lineEdit?_eq_some hedit).1
    rw [Option.toList_some, List.singleton_append]
    refine ⟨?_, fun line' hline' => ?_⟩
    · rw [← hline]
      exact find?_append_of_eq (by rwa [hline]) below
    · rw [shiftOf, shiftOf, find?_append_of_ne above]
      intro e' he'
      rcases List.mem_cons.mp he' with rfl | he'
      · omega
      · exact Nat.ne_of_gt (hline'.trans (hafter e' he'))

end Reindent

namespace Document

open Reindent
open Form (Pair)

variable {shift : Nat → Int} {d d' : Document}

/-- An offset that `Follows` its line is in the column that the shift of the line leads to. -/
theorem column_follows {edits : List LineEdit} {q q' : Nat}
    (hq : Follows shift d.text d'.text q q')
    (hshift : shiftOf edits (lineColumn d.text q).1 = shift (lineColumn d.text q).1) :
    column (lineStarts d.text) edits q = (lineColumn d'.text q').2 := by
  have hstart := startOf_add_column d.text q
  rw [Nat.min_eq_left hq.le] at hstart
  rw [column, ← lineColumn_line, hshift]
  have hcolumn := hq.column
  omega

theorem column_nil {q : Nat} (hq : q ≤ d.text.length) :
    column (lineStarts d.text) [] q = (lineColumn d.text q).2 :=
  column_follows (.refl hq) rfl

/-- The forms before an offset, in the two nodes of a `Pair`. -/
theorem forms_before {f f' : Form} (h : Pair shift d d' f f') {p p' : Nat}
    (hp : Follows shift d.text d'.text p p') :
    List.Forall₂ (fun g g' => Pair shift d d' g g' ∧ g.kind.isForm ∧ g.start < p)
      (f.forms.filter fun g => g.start < p) (f'.forms.filter fun g => g.start < p') := by
  have hfilter : List.Forall₂ (fun g g' => Pair shift d d' g g' ∧ g.kind.isForm)
      (f.forms.filter fun g => g.start < p) (f'.forms.filter fun g => g.start < p') := by
    refine List.rel_filter (fun {g g'} hg => ?_) h.forms
    show decide (g.start < p) = true ↔ decide (g'.start < p') = true
    rw [decide_eq_true_eq, decide_eq_true_eq]
    exact (hg.1.start hg.2).lt_iff hp
  refine (forall₂_mem hfilter).imp ?_
  rintro g g' ⟨hg, -, hpair, hk⟩
  exact ⟨hpair, hk, of_decide_eq_true (List.mem_filter.mp hg).2⟩

/-- The `targetColumn` of a line is the same once the tokens have moved with their lines: it is told
by forms on the lines above, whose shifts are known. -/
theorem targetColumn_pair (h : Respaced shift d.text d'.text) {p p' : Nat}
    (hp : Follows shift d.text d'.text p p') {edits : List LineEdit}
    (hedits : ∀ a q, (a, q) ∈ spots 0 (scan d.text) → q < p →
      shiftOf edits (lineColumn d.text q).1 = shift (lineColumn d.text q).1) (width : Nat) :
    targetColumn d' (lineStarts d'.text) [] p' width =
      targetColumn d (lineStarts d.text) edits p width := by
  have hcolumn : ∀ {f f' : Form}, Pair shift d d' f f' → f.kind.isForm → f.start < p →
      column (lineStarts d'.text) [] f'.start = column (lineStarts d.text) edits f.start := by
    intro f f' hpair hk hlt
    obtain ⟨a, ha⟩ := hpair.placed.exists_spot hk
    have hstart := hpair.start hk
    rw [column_nil hstart.le', column_follows hstart (hedits a _ ha hlt)]
  have hline : ∀ {f f' : Form}, Pair shift d d' f f' → f.kind.isForm →
      lineOf (lineStarts d'.text) f'.start = lineOf (lineStarts d.text) f.start := by
    intro f f' hpair hk
    rw [← lineColumn_line, ← lineColumn_line, (hpair.start hk).line]
  have hinner := innermost?_pair h hp
  rw [targetColumn, targetColumn]
  cases hlist : d.innermost? p with
  | none =>
    rw [hlist] at hinner
    generalize d'.innermost? p' = found at hinner
    cases hinner
    rfl
  | some list =>
    obtain ⟨-, -, hlt, -⟩ := framed_of_innermost? hlist
    rw [hlist] at hinner
    generalize d'.innermost? p' = found at hinner
    cases hinner with
    | @some _ list' hpair =>
      obtain ⟨hpair, hk⟩ := hpair
      have hopen := hcolumn hpair (Kind.isForm_of_isCollection hk) hlt
      have hforms := forms_before hpair hp
      dsimp only
      rw [hopen, Form.opening, Form.opening, hpair.kind]
      generalize (list.forms.filter fun f => decide (f.start < p)) = forms at hforms
      generalize (list'.forms.filter fun f => decide (f.start < p')) = forms' at hforms
      cases hforms with
      | nil => rfl
      | @cons head head' args args' hhead hargs =>
        obtain ⟨hhead, hheadk, hheadlt⟩ := hhead
        dsimp only
        rw [hhead.isSymbol hheadk, hcolumn hhead hheadk hheadlt, hline hhead hheadk]
        by_cases hbody : (list.kind ≠ .list || !head.isSymbol) = true
        · rw [if_pos hbody, if_pos hbody]
        · have hsymbol : head.isSymbol = true := by
            refine eq_true_of_ne_false fun hne => hbody ?_
            rw [hne]
            exact Bool.or_true _
          rw [if_neg hbody, if_neg hbody, hhead.text_of_isSymbol hsymbol]
          cases hargs with
          | nil => rfl
          | cons harg _ =>
            obtain ⟨harg, hargk, harglt⟩ := harg
            dsimp only
            rw [hcolumn harg hargk harglt, hline harg hargk]

/-- A token before the text of a line that starts outside of strings is on a line above. -/
theorem line_lt_of_spot (hterm : ∀ t ∈ scan d.text, t.kind ≠ .unterminatedString) {line : Nat}
    {l bs : List Char} (hline : line < (lineStarts d.text).length)
    (hl : (lines d.text)[line]? = some l)
    (hstring : startsInString d (startOf (lineStarts d.text) line) = false)
    (hbs : indentOf? l = some bs) {a : Token} {q : Nat} (ha : (a, q) ∈ spots 0 (scan d.text))
    (hq : q < startOf (lineStarts d.text) line + bs.length) :
    (lineColumn d.text q).1 < line := by
  obtain ⟨as, rest, htext, hstart, hends, has, -⟩ := exists_line hline hl
  obtain ⟨hblank, c, rest', rfl, -, hc⟩ := indentOf?_eq_some hbs
  have hfresh : Fresh as := by
    have htake : d.text.take as.length = as := by
      rw [htext, List.take_left]
    have hle : as.length ≤ d.text.length := by
      rw [htext, List.length_append]
      omega
    rw [hstart] at hstring
    have h := fresh_take hterm hle (by rwa [htake]) hstring
    rwa [htake] at h
  rw [List.append_assoc, List.cons_append] at htext
  rw [htext, Token.spots_scan_line hfresh hblank hc] at ha
  rcases List.mem_append.mp ha with ha | ha
  · have hlt := Token.lt_of_mem_spots_scan ha
    rw [htext, lineColumn_append_left _ (Nat.le_of_lt hlt)]
    exact line_lt_of_lt has hlt
  · obtain ⟨us, vs, -, hn⟩ := Token.exists_of_mem_spots ha
    omega

/-- What the edits of a pass make of a document: tokens move with their lines, and the lines are
laid anew. -/
structure Passed (edits : List LineEdit) (d d' : Document) : Prop where
  respaced : Respaced (shiftOf edits) d.text d'.text
  lines : ∀ line, (lines d'.text)[line]? = (lines d.text)[line]?.map (relaid edits line)

namespace Passed

variable {edits : List LineEdit} {line : Nat} {l : List Char} (h : Passed edits d d')
include h

/-- A line that starts outside of strings did so before it was `Passed`. -/
theorem startsInString_eq_false (hline : line < (lineStarts d.text).length)
    (hline' : line < (lineStarts d'.text).length)
    (hstring : startsInString d' (startOf (lineStarts d'.text) line) = false) :
    startsInString d (startOf (lineStarts d.text) line) = false := by
  refine Bool.eq_false_iff.mpr fun hin => ?_
  have hin' := h.respaced.inString (lineColumn_startOf hline) (lineColumn_startOf hline')
    (startOf_le_length _ _) (startOf_le_length _ _) (inString_of_startsInString hin)
  rw [startsInString_of_inString hin'] at hstring
  cases hstring

/-- The text of a line moves by the shift of the line, and its `targetColumn` stays the same. -/
theorem targetColumn_eq (hterm : ∀ t ∈ scan d.text, t.kind ≠ .unterminatedString)
    (hline : line < (lineStarts d.text).length) (hline' : line < (lineStarts d'.text).length)
    (hl : (Text.lines d.text)[line]? = some l)
    (hstring : startsInString d (startOf (lineStarts d.text) line) = false) {bs : List Char}
    (hbs : indentOf? l = some bs) {above : List LineEdit}
    (hshift : ∀ line' < line, shiftOf edits line' = shiftOf above line') (width n : Nat)
    (hn : n ≤ (relaid edits line l).length)
    (hcolumn : (n : Int) = bs.length + shiftOf edits line) :
    targetColumn d' (lineStarts d'.text) [] (startOf (lineStarts d'.text) line + n) width =
      targetColumn d (lineStarts d.text) above (startOf (lineStarts d.text) line + bs.length)
        width := by
  obtain ⟨-, c, rest, hsplit, -⟩ := indentOf?_eq_some hbs
  have hle : bs.length ≤ l.length := by
    rw [hsplit, List.length_append]
    omega
  have hl' : (Text.lines d'.text)[line]? = some (relaid edits line l) := by
    rw [h.lines, hl, Option.map_some]
  have hplace := lineColumn_in_line hline hl hle
  have hplace' := lineColumn_in_line hline' hl' hn
  have hp : Follows (shiftOf edits) d.text d'.text
      (startOf (lineStarts d.text) line + bs.length) (startOf (lineStarts d'.text) line + n) := by
    refine ⟨hplace.1, hplace'.1, ?_, ?_⟩
    · rw [hplace.2, hplace'.2]
    · rw [hplace.2, hplace'.2]
      exact hcolumn
  refine targetColumn_pair h.respaced hp (fun a q ha hq => ?_) width
  exact (hshift _ (line_lt_of_spot hterm hline hl hstring hbs ha hq)).symm

end Passed

/-- **A second pass leaves every line alone**: it has no `lineEdit?`. -/
theorem lineEdit?_settled (hterm : ∀ t ∈ scan d.text, t.kind ≠ .unterminatedString)
    {width first count : Nat}
    (h : Passed (lineEdits d (lineStarts d.text) width [] first count) d d') {line : Nat}
    (hge : first ≤ line) (hlt : line < first + count) (hline : line < (lineStarts d.text).length)
    (hline' : line < (lineStarts d'.text).length) :
    lineEdit? d' (lineStarts d'.text) width [] line = none := by
  by_cases hstring' : startsInString d' (startOf (lineStarts d'.text) line) = true
  · rw [lineEdit?]
    exact if_pos hstring'
  rw [Bool.not_eq_true] at hstring'
  have hstring := h.startsInString_eq_false hline hline' hstring'
  obtain ⟨above, hfind, hshift⟩ := lineEdits_at d (lineStarts d.text) width hge hlt
  generalize lineEdits d (lineStarts d.text) width [] first count = edits at h hfind hshift
  have hl := getElem?_lines hline
  generalize (d.text.drop (startOf (lineStarts d.text) line)).takeWhile (· != '\n') = l at hl
  have hl' : (lines d'.text)[line]? = some (relaid edits line l) := by
    rw [h.lines, hl, Option.map_some]
  rw [lineEdit?_eq hline hl hstring] at hfind
  rw [lineEdit?_eq hline' hl' hstring']
  cases hbs : indentOf? l with
  | none =>
    rw [hbs, Option.bind_none] at hfind
    have hrelaid : relaid edits line l = l := by rw [relaid, hfind]
    rw [hrelaid, hbs, Option.bind_none]
  | some bs =>
    have htarget := h.targetColumn_eq hterm hline hline' hl hstring hbs hshift width
    rw [hbs, Option.bind_some] at hfind
    dsimp only at hfind
    generalize targetColumn d (lineStarts d.text) above
      (startOf (lineStarts d.text) line + bs.length) width = after at hfind htarget
    by_cases hneeds : (after ≠ bs.length || bs.any (· == '\t')) = true
    · -- the line was moved to its target
      rw [if_pos hneeds] at hfind
      have hrelaid : relaid edits line l = List.replicate after ' ' ++ l.drop bs.length := by
        rw [relaid, hfind]
        rfl
      have hcolumn : shiftOf edits line = (after : Int) - bs.length := by
        rw [shiftOf, hfind]
        rfl
      have hafter := htarget after (by rw [hrelaid]; simp) (by omega)
      rw [hrelaid, indentOf?_respace hbs (blanks_replicate after), Option.bind_some]
      simp [hafter]
    · -- the line was where it should be
      rw [if_neg hneeds] at hfind
      have hrelaid : relaid edits line l = l := by rw [relaid, hfind]
      have hcolumn : shiftOf edits line = 0 := by rw [shiftOf, hfind]
      obtain ⟨-, c, rest, hsplit, -⟩ := indentOf?_eq_some hbs
      have hafter := htarget bs.length (by rw [hrelaid, hsplit]; simp) (by omega)
      rw [hrelaid, hbs, Option.bind_some]
      dsimp only
      rw [hafter, if_neg hneeds]

theorem lineEdits_eq_nil {width first count : Nat}
    (h : ∀ line, first ≤ line → line < first + count →
      lineEdit? d (lineStarts d.text) width [] line = none) :
    lineEdits d (lineStarts d.text) width [] first count = [] := by
  induction count generalizing first with
  | zero => rfl
  | succ count ih =>
    rw [lineEdits, h first (Nat.le_refl _) (by omega)]
    exact ih fun line hge hlt => h line (by omega) (by omega)

/-! ### Whole passes -/

/-- The edits of an indentation from the line of `start` to the line of `stop`. -/
def indentEdits (d : Document) (start stop width : Nat) : List LineEdit :=
  let first := (lineColumn d.text start).1
  let last := max first (lineColumn d.text stop).1
  lineEdits d (lineStarts d.text) width [] first (last + 1 - first)

theorem indent_changes (d : Document) (start stop width : Nat) :
    (d.indent start { otherEnd := some stop, indentWidth := width }).changes =
      (d.indentEdits start stop width).reverse.flatMap LineEdit.changes := by
  -- an offset past the end is on the last line, as the end is
  have hmin : ∀ n, (lineColumn d.text (min n d.length)).1 = (lineColumn d.text n).1 := by
    intro n
    rw [lineColumn, lineColumn, ← List.take_take, Document.length, List.take_length]
  have hmax : ∀ m n, (lineColumn d.text (max m n)).1 =
      max (lineColumn d.text m).1 (lineColumn d.text n).1 := by
    intro m n
    rcases Nat.le_total m n with h | h
    · rw [Nat.max_eq_right h, Nat.max_eq_right (line_mono d.text h)]
    · rw [Nat.max_eq_left h, Nat.max_eq_left (line_mono d.text h)]
  rw [indent, indentEdits]
  dsimp only
  rw [← lineColumn_line, ← lineColumn_line, hmin, hmin, Option.getD_some, hmax, hmin, Nat.max_comm]

/-- The lines of an indentation are lines of the text. -/
theorem line_range_le (cs : List Char) (start stop : Nat) :
    (lineColumn cs start).1 +
        (max (lineColumn cs start).1 (lineColumn cs stop).1 + 1 - (lineColumn cs start).1) ≤
      (lineStarts cs).length := by
  have hstart := lineOf_lt cs start
  have hstop := lineOf_lt cs stop
  rw [← lineColumn_line] at hstart hstop
  omega

/-- The `indentEdits` stand in the order of the text and of its lines. -/
theorem indentEdits_ordered (d : Document) (start stop width : Nat) :
    (d.indentEdits start stop width).Pairwise (fun e e' => e.start + e.before < e'.start) ∧
      (d.indentEdits start stop width).Pairwise fun e e' => e.line < e'.line := by
  obtain ⟨edits, heq, hlines, -⟩ := exists_lineEdits d (lineStarts d.text) width
    (max (lineColumn d.text start).1 (lineColumn d.text stop).1 + 1 - (lineColumn d.text start).1)
    [] (lineColumn d.text start).1
  refine ⟨(lineEdits_opens d width (line_range_le d.text start stop)).1, ?_⟩
  rw [indentEdits, heq]
  exact hlines

/-- Each of the `indentEdits` is at the start of a line between those of its ends, outside of
strings. -/
theorem of_mem_indentEdits {start stop width : Nat} {e : LineEdit}
    (h : e ∈ d.indentEdits start stop width) :
    ((lineColumn d.text start).1 ≤ e.line ∧
        e.line ≤ max (lineColumn d.text start).1 (lineColumn d.text stop).1) ∧
      (e.Opens d.text ∧ EndsLine (d.text.take e.start) ∧
        lineColumn d.text e.start = (e.line, 0) ∧ startsInString d e.start = false) ∧
      ∃ above, lineEdit? d (lineStarts d.text) width above e.line = some e := by
  obtain ⟨edits, heq, -, hall⟩ := exists_lineEdits d (lineStarts d.text) width
    (max (lineColumn d.text start).1 (lineColumn d.text stop).1 + 1 - (lineColumn d.text start).1)
    [] (lineColumn d.text start).1
  refine ⟨?_, (lineEdits_opens d width (line_range_le d.text start stop)).2 e h, ?_⟩
  · rw [indentEdits, heq] at h
    obtain ⟨hge, hlt, -⟩ := hall e h
    omega
  · rw [indentEdits, heq] at h
    exact (hall e h).2.2

/-- The `indentEdits` can be made. -/
theorem exists_remade (d : Document) (start stop width : Nat) :
    ∃ out, Makes d.text ((d.indentEdits start stop width).reverse.flatMap LineEdit.changes) out ∧
      Remade (fun e as => e ∈ d.indentEdits start stop width ∧ as = d.text.take e.start)
        (d.indentEdits start stop width) d.text out :=
  exists_makes (d.indentEdits_ordered start stop width).1 fun _ he =>
    ⟨(of_mem_indentEdits he).2.1.1, he, rfl⟩

/-- What the `indentEdits` make of a document is `Passed` by them. -/
theorem exists_passed (d : Document) (hterm : ∀ t ∈ scan d.text, t.kind ≠ .unterminatedString)
    (start stop width : Nat) :
    ∃ out, Makes d.text ((d.indentEdits start stop width).reverse.flatMap LineEdit.changes) out ∧
      Passed (d.indentEdits start stop width) d (ofText out) := by
  obtain ⟨out, hmakes, hremade⟩ := d.exists_remade start stop width
  have hq : ∀ {e : LineEdit} {as : List Char},
      e ∈ d.indentEdits start stop width ∧ as = d.text.take e.start →
        Fresh as ∧ advance (0, 0) as = (e.line, 0) := by
    rintro e as ⟨he, rfl⟩
    obtain ⟨-, ⟨hopens, hends, hplace, hstring⟩, -⟩ := of_mem_indentEdits he
    exact ⟨fresh_take hterm hopens.start_le hends hstring, hplace⟩
  have hlines := (d.indentEdits_ordered start stop width).2.imp Nat.ne_of_lt
  exact ⟨out, hmakes, hremade.respaced hq hlines, hremade.getElem?_lines (fun h => (hq h).2) hlines⟩

/-- **Indentation settles.**  In a text whose strings all end, an indentation can be made whatever
its ends and its width are.  Indenting the text that it leaves once more, between any two offsets on
the same first and last lines and with the same width, changes nothing.  Every significant token of
that text is on the line it was on, in the column that the shifts of the pass lead to. -/
theorem indent_settles {cs : List Char} (hterm : ∀ t ∈ scan cs, t.kind ≠ .unterminatedString)
    (start stop width : Nat) (language : String) :
    ∃ commands host,
      Change.commands ((ofText cs).indent start
        { otherEnd := some stop, indentWidth := width }).changes = .ok commands ∧
      (Host.ofBuffer (.ofText language cs)).applyAll commands = (.ok true, host) ∧
      (∀ start' stop', (lineColumn host.text start').1 = (lineColumn cs start).1 →
        (lineColumn host.text stop').1 = (lineColumn cs stop).1 →
        ((ofText host.text).indent start'
          { otherEnd := some stop', indentWidth := width }).changes = []) ∧
      (spots 0 (scan host.text)).map (fun x => (x.1, lineColumn host.text x.2)) =
        (spots 0 (scan cs)).map fun x => (x.1, (lineColumn cs x.2).1,
          column (lineStarts cs) ((ofText cs).indentEdits start stop width) x.2) := by
  obtain ⟨out, ⟨commands, hcommands, hsplice⟩, hpassed⟩ :=
    (ofText cs).exists_passed hterm start stop width
  rw [← indent_changes] at hcommands
  obtain ⟨host, hrun, rfl⟩ :=
    Host.applyAll_of_spliceAll? (h := Host.ofBuffer (.ofText language cs)) ⟨rfl, rfl⟩ hsplice
  refine ⟨commands, host, hcommands, hrun, ?_, ?_⟩
  · intro start' stop' hstart hstop
    have hrange := line_range_le cs start stop
    have hrange' := line_range_le host.text start' stop'
    rw [hstart, hstop] at hrange'
    have hnil : (ofText host.text).indentEdits start' stop' width = [] := by
      show lineEdits (ofText host.text) _ width [] (lineColumn host.text start').1
        (max (lineColumn host.text start').1 (lineColumn host.text stop').1 + 1 -
          (lineColumn host.text start').1) = []
      rw [hstart, hstop]
      refine lineEdits_eq_nil fun line hge hlt => ?_
      exact lineEdit?_settled hterm hpassed hge hlt (hlt.trans_le hrange) (hlt.trans_le hrange')
    rw [indent_changes, hnil]
    rfl
  · rw [← List.forall₂_eq_eq_eq, List.forall₂_map_left_iff, List.forall₂_map_right_iff]
    refine List.Forall₂.flip (hpassed.respaced.imp ?_)
    rintro x x' ⟨htoken, hfollows⟩
    exact Prod.ext htoken (Prod.ext hfollows.line (column_follows hfollows rfl).symm)

/-- Each line follows one that moves: the bindings follow the vector, the body follows the list, and
the argument in it follows the body.  The line inside the string stays. -/
theorem indent_settles_nested :
    let cs := [' ', ' ', '(', 'l', 'e', 't', ' ', '[', 'a', ' ', '1', '\n', ' ', 'b', ' ', '"', 'x',
      '\n', ' ', 'y', '"', ']', '\n', '\t', '(', 'f', ' ', 'a', '\n', 'b', ')', ')']
    let o : Edit.Options := { otherEnd := some 29, indentWidth := 2 }
    (∀ t ∈ scan cs, t.kind ≠ .unterminatedString) ∧
      ((ofText cs).indent 5 o).changes =
        [.insertion 29 (List.replicate 5 ' '), .deletion 23 1, .insertion 23 [' ', ' '],
          .deletion 12 1, .insertion 12 (List.replicate 6 ' '), .deletion 0 2] ∧
      ∃ commands host, Change.commands ((ofText cs).indent 5 o).changes = .ok commands ∧
        (Host.ofBuffer (.ofText "clojure" cs)).applyAll commands = (.ok true, host) ∧
        (∀ start' stop', (lineColumn host.text start').1 = (lineColumn cs 5).1 →
          (lineColumn host.text stop').1 = (lineColumn cs 29).1 →
          ((ofText host.text).indent start'
            { otherEnd := some stop', indentWidth := 2 }).changes = []) ∧
        (spots 0 (scan host.text)).map (fun x => (x.1, lineColumn host.text x.2)) =
          (spots 0 (scan cs)).map fun x => (x.1, (lineColumn cs x.2).1,
            column (lineStarts cs) ((ofText cs).indentEdits 5 29 2) x.2) := by
  intro cs o
  have hterm : ∀ t ∈ scan cs, t.kind ≠ .unterminatedString := by decide +kernel
  exact ⟨hterm, by decide +kernel, indent_settles hterm 5 29 2 "clojure"⟩

end Document

end SexpEdit
