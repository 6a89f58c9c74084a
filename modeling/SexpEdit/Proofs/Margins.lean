/-
Margins.

The margin of a line is the spaces and tabs that it starts with.  An indentation gives some lines a
margin of spaces in the place of their own and changes nothing else, whatever the text: its edits
are made from the bottom up, so each finds its line where it was.  Its caret is carried along the
edits.  The edits of lines below do not move it, so it moves by as much as the text of its own line.

* `Reindent.Remade.take_eq` — the text before all edits stays;
* `Document.relaid_cases` — a line stays, or it gets a margin of spaces;
* `Document.indent_caret` — the caret moves by the shift of its line;
* `Document.indent_changes_margins` — an indentation changes margins only.
-/
import SexpEdit.Proofs.Landing
import SexpEdit.Proofs.Settling

namespace SexpEdit

open Text

namespace Text

/-- The spaces and tabs that a line starts with. -/
def margin (l : List Char) : List Char :=
  l.takeWhile fun c => c == ' ' || c == '\t'

/-- What a line has behind its `margin`. -/
def behindMargin (l : List Char) : List Char :=
  l.dropWhile fun c => c == ' ' || c == '\t'

/-- Nothing but a carriage return comes right behind the `margin`, or nothing at all. -/
def MarginOnly (l : List Char) : Prop :=
  ∀ c ∈ (behindMargin l).head?, c = '\r'

theorem drop_length_margin (l : List Char) : l.drop (margin l).length = behindMargin l := by
  have hsplit : margin l ++ behindMargin l = l := List.takeWhile_append_dropWhile
  calc l.drop (margin l).length
    _ = (margin l ++ behindMargin l).drop (margin l).length := by rw [hsplit]
    _ = behindMargin l := List.drop_left

/-- What an indentation looks for at the start of a line, by `indentOf?`, is its `margin`. -/
theorem indentOf?_eq_some_iff {l bs : List Char} :
    indentOf? l = some bs ↔ bs = margin l ∧ ¬MarginOnly l := by
  obtain ⟨as, t, rfl, has, ht⟩ := exists_blanks l
  have hmargin : margin (as ++ t) = as := takeWhile_blanks has ht
  have hbehind : behindMargin (as ++ t) = t := by
    rw [← drop_length_margin, hmargin, List.drop_left]
  rw [indentOf?_append has ht, hmargin, MarginOnly, hbehind]
  cases t with
  | nil => simp
  | cons c t =>
    by_cases hc : c = '\r'
    · simp [hc]
    · simp [hc, eq_comm]

/-- Where the text before `line` is the same the line starts at the same offset. -/
theorem startOf_of_take_eq {cs out : List Char} {line : Nat} (hline : line < (lineStarts cs).length)
    (h : out.take (startOf (lineStarts cs) line) = cs.take (startOf (lineStarts cs) line)) :
    line < (lineStarts out).length ∧
      startOf (lineStarts out) line = startOf (lineStarts cs) line := by
  have hplace := lineColumn_startOf hline
  have hcs := startOf_add_column cs (startOf (lineStarts cs) line)
  rw [hplace] at hcs
  generalize startOf (lineStarts cs) line = s at h hplace hcs ⊢
  have hlength := congrArg List.length h
  rw [List.length_take, List.length_take] at hlength
  have hplace' : lineColumn out s = (line, 0) := by
    rw [lineColumn, h]
    exact hplace
  have hlt := lineOf_lt out s
  have hout := startOf_add_column out s
  rw [← lineColumn_line, hplace'] at hlt
  rw [hplace'] at hout
  dsimp only at hout
  exact ⟨hlt, by omega⟩

/-- The text of `cs` at `offset` up to the end of its line. -/
def restOfLine (cs : List Char) (offset : Nat) : List Char :=
  (cs.drop offset).takeWhile (· != '\n')

end Text

namespace Reindent

/-- The text before all edits stays as it is. -/
theorem Remade.take_eq {Q : LineEdit → List Char → Prop} {edits : List LineEdit}
    {cs out : List Char} {m : Nat}
    (hq : ∀ {e : LineEdit} {as : List Char}, Q e as → e.start = as.length)
    (hm : ∀ e ∈ edits, m ≤ e.start) (h : Remade Q edits cs out) : out.take m = cs.take m := by
  induction h with
  | nil => rfl
  | @snoc edits e as bs rest out c he _ _ _ _ ih =>
    have hle : m ≤ as.length := by
      rw [← hq he]
      exact hm e (by simp)
    rw [ih fun e' he' => hm e' (by simp [he']), List.take_append_of_le_length hle,
      List.take_append_of_le_length hle]

/-- An offset before all edits moves no more. -/
theorem carry_of_lt {offset : Nat} {moved : Int} {edits : List LineEdit}
    (h : ∀ e ∈ edits, offset < e.start) : carry offset moved edits = (offset + moved).toNat := by
  cases edits with
  | nil => rfl
  | cons e edits =>
    have hlt := h e List.mem_cons_self
    rw [carry, if_neg (by omega), if_neg (by omega)]

/-- The `lineEdit?` of a line gives it another `margin`, if there is something behind the one it
has. -/
theorem lineEdit?_margin {d : Document} {width line : Nat} {above : List LineEdit} {e : LineEdit}
    {l : List Char} (hl : (lines d.text)[line]? = some l)
    (h : lineEdit? d (lineStarts d.text) width above line = some e) :
    e.before = (margin l).length ∧ ¬MarginOnly l := by
  have hline := lt_of_getElem?_lines hl
  obtain ⟨-, hstart, hstring, -⟩ := lineEdit?_eq_some h
  rw [hstart] at hstring
  rw [lineEdit?_eq hline hl hstring] at h
  obtain ⟨bs, hbs, hedit⟩ := Option.bind_eq_some_iff.mp h
  obtain ⟨rfl, hmore⟩ := indentOf?_eq_some_iff.mp hbs
  obtain ⟨-, hedit⟩ := Option.ite_none_right_eq_some.mp hedit
  exact ⟨congrArg LineEdit.before (Option.some.inj hedit).symm, hmore⟩

end Reindent

namespace Document

open Reindent

variable {d : Document}

/-- The first character of `line` is in a string that starts on a line above. -/
def ContinuesString (d : Document) (line : Nat) : Prop :=
  ∃ l ∈ d.leaves, l.kind.isString ∧ (lineColumn d.text l.start).1 < line ∧
    startOf (lineStarts d.text) line < l.stop

theorem startsInString_of_continuesString {line : Nat} (hline : line < (lineStarts d.text).length)
    (h : d.ContinuesString line) : startsInString d (startOf (lineStarts d.text) line) = true := by
  obtain ⟨l, hl, hk, habove, hstop⟩ := h
  have hplace := lineColumn_startOf hline
  have hlt : l.start < startOf (lineStarts d.text) line := by
    by_contra hge
    have hle := line_mono d.text (Nat.le_of_not_lt hge)
    rw [hplace] at hle
    omega
  obtain ⟨ts, us, hsplit, hstart⟩ := exists_split_of_mem hl
  rw [Leaf.stop] at hstop
  exact startsInString_of_inString ⟨ts, l.token, us, hsplit, by omega, by omega, hk⟩

/-- **A line stays as it is, or it gets a margin of spaces.**  A line that gets one is between the
lines of the two ends, has something on it, and does not start inside of a string. -/
theorem relaid_cases {start stop : Nat} (hle : start ≤ stop) (width : Nat) {line : Nat}
    {l : List Char} (hl : (lines d.text)[line]? = some l) :
    relaid (d.indentEdits start stop width) line l = l ∨
      ((lineColumn d.text start).1 ≤ line ∧ line ≤ (lineColumn d.text stop).1) ∧
        ¬MarginOnly l ∧ ¬d.ContinuesString line ∧
        ∃ n, relaid (d.indentEdits start stop width) line l =
          List.replicate n ' ' ++ behindMargin l := by
  rw [relaid]
  split
  · rename_i e hfind
    have hline := List.find?_some hfind
    rw [beq_iff_eq] at hline
    subst hline
    obtain ⟨hrange, ⟨-, -, hplace, hstring⟩, above, hedit⟩ :=
      of_mem_indentEdits (List.mem_of_find?_eq_some hfind)
    rw [Nat.max_eq_right (line_mono d.text hle)] at hrange
    obtain ⟨hbefore, hmore⟩ := lineEdit?_margin hl hedit
    refine .inr ⟨hrange, hmore, fun hin => ?_, e.after, ?_⟩
    · have hin := startsInString_of_continuesString (lt_of_getElem?_lines hl) hin
      rw [← (lineEdit?_eq_some hedit).2.1, hstring] at hin
      cases hin
    · rw [LineEdit.relaid, hbefore, drop_length_margin]
  · exact .inl rfl

/-- The `indentEdits` of an indentation lay the lines of the text anew, and what is before the first
of these lines stays. -/
theorem exists_relaid (d : Document) (start stop width : Nat) :
    ∃ out, Makes d.text ((d.indentEdits start stop width).reverse.flatMap LineEdit.changes) out ∧
      (∀ line, (lines out)[line]? =
        (lines d.text)[line]?.map (relaid (d.indentEdits start stop width) line)) ∧
      ∀ m, (∀ e ∈ d.indentEdits start stop width, m ≤ e.start) →
        out.take m = d.text.take m := by
  obtain ⟨out, hmakes, hremade⟩ := d.exists_remade start stop width
  refine ⟨out, hmakes, hremade.getElem?_lines ?_ ?_, fun m hm => hremade.take_eq ?_ hm⟩
  · rintro e as ⟨he, rfl⟩
    exact (of_mem_indentEdits he).2.1.2.2.1
  · exact (d.indentEdits_ordered start stop width).2.imp Nat.ne_of_lt
  · rintro e as ⟨he, rfl⟩
    have hle := (of_mem_indentEdits he).2.1.1.start_le
    rw [List.length_take]
    omega

/-- A text whose `lines` are each made of the one in its place has as many. -/
theorem length_lines_of_map {cs out : List Char} {lay : Nat → List Char → List Char}
    (h : ∀ line, (lines out)[line]? = (lines cs)[line]?.map (lay line)) :
    (lines out).length = (lines cs).length := by
  have hnone : ∀ line, (lines out).length ≤ line ↔ (lines cs).length ≤ line := by
    intro line
    rw [← List.getElem?_eq_none_iff, ← List.getElem?_eq_none_iff, h, Option.map_eq_none_iff]
  have hout := hnone (lines cs).length
  have hcs := hnone (lines out).length
  omega

/-- The ends of an `indent`, cut to the text. -/
theorem indent_eq (d : Document) (offset : Nat) (o : Edit.Options) :
    let start := min offset d.length
    let stop := min (max (o.otherEnd.getD start) start) d.length
    d.indent offset o =
      ⟨(d.indentEdits start stop o.indentWidth).reverse.flatMap LineEdit.changes,
        carry start 0 (d.indentEdits start stop o.indentWidth)⟩ := by
  intro start stop
  have hle : start ≤ stop := by omega
  rw [indent, indentEdits, Nat.max_eq_right (line_mono d.text hle), lineColumn_line,
    lineColumn_line]

/-! ### The caret -/

/-- Behind the `margin` of its line an offset moves by the shift of the line. -/
theorem indent_caret {start : Nat} (hstart : start ≤ d.text.length) (stop width : Nat)
    {l : List Char} (hl : (lines d.text)[(lineColumn d.text start).1]? = some l)
    (hcolumn : (margin l).length ≤ (lineColumn d.text start).2) :
    ∃ column, carry start 0 (d.indentEdits start stop width) =
        startOf (lineStarts d.text) (lineColumn d.text start).1 + column ∧
      column ≤ (relaid (d.indentEdits start stop width) (lineColumn d.text start).1 l).length ∧
      (relaid (d.indentEdits start stop width) (lineColumn d.text start).1 l).drop column =
        l.drop (lineColumn d.text start).2 := by
  have hplace := startOf_add_column d.text start
  have hend := column_le_length hl
  -- the edits of the lines below are behind the offset
  have hbelow : ∀ e ∈ d.indentEdits start stop width, (lineColumn d.text start).1 < e.line →
      start < e.start := by
    intro e he hlt
    by_contra hge
    have hle := line_mono d.text (Nat.le_of_not_lt hge)
    rw [(of_mem_indentEdits he).2.1.2.2.1] at hle
    omega
  obtain ⟨below, hedits, hafter⟩ := exists_lineEdits_succ d (lineStarts d.text) width
    (max (lineColumn d.text start).1 (lineColumn d.text stop).1 - (lineColumn d.text start).1) []
    (lineColumn d.text start).1
  have hedits : d.indentEdits start stop width =
      (lineEdit? d (lineStarts d.text) width [] (lineColumn d.text start).1).toList ++ below := by
    rw [indentEdits, Nat.sub_add_comm (Nat.le_max_left _ _), hedits]
    rfl
  rw [hedits] at hbelow ⊢
  cases hedit : lineEdit? d (lineStarts d.text) width [] (lineColumn d.text start).1 with
  | none =>
    rw [hedit, Option.toList_none, List.nil_append] at hbelow
    have hsame : relaid ([] ++ below) (lineColumn d.text start).1 l = l := by
      rw [relaid, List.nil_append, find?_eq_none fun e he => Nat.ne_of_gt (hafter e he)]
    refine ⟨(lineColumn d.text start).2, ?_, ?_, ?_⟩
    · rw [Option.toList_none, List.nil_append, carry_of_lt fun e he => hbelow e he (hafter e he)]
      omega
    · rw [Option.toList_none, hsame]
      exact hend
    · rw [Option.toList_none, hsame]
  | some e =>
    obtain ⟨hline, hestart, -, -⟩ := lineEdit?_eq_some hedit
    obtain ⟨hbefore, -⟩ := lineEdit?_margin hl hedit
    rw [hedit, Option.toList_some, List.singleton_append] at hbelow
    have hlaid : relaid (e :: below) (lineColumn d.text start).1 l = e.relaid l := by
      have hfind : (e :: below).find? (fun e' => e'.line == e.line) = some e :=
        List.find?_cons_of_pos (beq_self_eq_true _)
      rw [relaid, ← hline, hfind]
    have hshift : e.shift = (e.after : Int) - e.before := rfl
    refine ⟨e.after + ((lineColumn d.text start).2 - e.before), ?_, ?_, ?_⟩
    · rw [Option.toList_some, List.singleton_append, carry, if_pos (by omega),
        carry_of_lt fun e he => hbelow e (List.mem_cons_of_mem _ he) (hafter e he)]
      omega
    · rw [Option.toList_some, List.singleton_append, hlaid, LineEdit.relaid, List.length_append,
        List.length_replicate, List.length_drop]
      omega
    · rw [Option.toList_some, List.singleton_append, hlaid, LineEdit.relaid, ← List.drop_drop]
      have hspaces : (List.replicate e.after ' ' ++ l.drop e.before).drop e.after =
          l.drop e.before := by
        rw [List.drop_append_of_le_length (by simp)]
        simp
      rw [hspaces, List.drop_drop]
      congr 1
      omega

/-- The line of the first end starts before every one of the `indentEdits`. -/
theorem startOf_le_of_mem_indentEdits {start stop width : Nat} {e : LineEdit}
    (he : e ∈ d.indentEdits start stop width) :
    startOf (lineStarts d.text) (lineColumn d.text start).1 ≤ e.start := by
  obtain ⟨hrange, ⟨-, -, hedit, -⟩, -⟩ := of_mem_indentEdits he
  have hline : (lineColumn d.text start).1 < (lineStarts d.text).length := by
    rw [lineColumn_line]
    exact lineOf_lt d.text start
  have hplace := startOf_add_column d.text start
  by_contra hlt
  have hin : startOf (lineStarts d.text) (lineColumn d.text start).1 ≤ d.text.length := by omega
  have hfirst := lineColumn_lt (Nat.lt_of_not_le hlt) hin
  rw [lineColumn_startOf hline, hedit] at hfirst
  omega

/-- The caret is on the line of the first end, and the rest of the line is the same. -/
theorem caret_of_relaid {cs out : List Char} {start stop width : Nat} (hstart : start ≤ cs.length)
    (hlines : ∀ line, (lines out)[line]? =
      (lines cs)[line]?.map (relaid ((ofText cs).indentEdits start stop width) line))
    (htake : ∀ m, (∀ e ∈ (ofText cs).indentEdits start stop width, m ≤ e.start) →
      out.take m = cs.take m)
    (hbehind : ∀ l ∈ (lines cs)[(lineColumn cs start).1]?,
      (margin l).length ≤ (lineColumn cs start).2) :
    let caret := carry start 0 ((ofText cs).indentEdits start stop width)
    caret ≤ out.length ∧ (lineColumn out caret).1 = (lineColumn cs start).1 ∧
      restOfLine out caret = restOfLine cs start := by
  have hline : (lineColumn cs start).1 < (lineStarts cs).length := by
    rw [lineColumn_line]
    exact lineOf_lt cs start
  obtain ⟨hline', hstart'⟩ :=
    startOf_of_take_eq hline (htake _ fun e he => startOf_le_of_mem_indentEdits he)
  obtain ⟨l, hl⟩ : ∃ l, (lines cs)[(lineColumn cs start).1]? = some l :=
    ⟨_, getElem?_lines hline⟩
  have hl' := hlines (lineColumn cs start).1
  rw [hl, Option.map_some] at hl'
  obtain ⟨column, hcaret, hcolumn, hrest⟩ :=
    indent_caret (d := ofText cs) hstart stop width hl (hbehind l hl)
  have hcaret : carry start 0 ((ofText cs).indentEdits start stop width) =
      startOf (lineStarts out) (lineColumn cs start).1 + column := by
    rw [hcaret, hstart']
    rfl
  obtain ⟨hin, hplace'⟩ := lineColumn_in_line hline' hl' hcolumn
  have hsource := takeWhile_drop_startOf hl (column_le_length hl)
  rw [startOf_add_column, Nat.min_eq_left hstart] at hsource
  intro caret
  rw [show caret = _ from hcaret, hplace', restOfLine, restOfLine, hsource,
    takeWhile_drop_startOf hl' hcolumn]
  exact ⟨hin, rfl, hrest⟩

/-- **An indentation changes margins only.**  Whatever the text, the ends and the width are, its
changes can all be made and the text after them has as many lines.  Each line stays as it is, or it
has spaces in the place of its margin and the same text behind them; then it is between the lines of
the two ends, cut to the text, it has more than its margin, and it does not go on with a string.
When the first end is not before the text of its line, the caret is on that line, and the rest of
the line is the same. -/
theorem indent_changes_margins (cs : List Char) (offset : Nat) (o : Edit.Options) :
    let start := min offset cs.length
    let stop := min (max (o.otherEnd.getD start) start) cs.length
    let r := (ofText cs).indent offset o
    ∃ out, Makes cs r.changes out ∧ (lines out).length = (lines cs).length ∧
      (∀ line l, (lines cs)[line]? = some l → (lines out)[line]? = some l ∨
        ((lineColumn cs start).1 ≤ line ∧ line ≤ (lineColumn cs stop).1) ∧
          ¬MarginOnly l ∧ ¬(ofText cs).ContinuesString line ∧
          ∃ n, (lines out)[line]? = some (List.replicate n ' ' ++ behindMargin l)) ∧
      ((∀ l ∈ (lines cs)[(lineColumn cs start).1]?,
          (margin l).length ≤ (lineColumn cs start).2) →
        r.caret ≤ out.length ∧ (lineColumn out r.caret).1 = (lineColumn cs start).1 ∧
          restOfLine out r.caret = restOfLine cs start) := by
  intro start stop r
  have hle : start ≤ stop := by omega
  have hr : r = ⟨((ofText cs).indentEdits start stop o.indentWidth).reverse.flatMap
      LineEdit.changes, carry start 0 ((ofText cs).indentEdits start stop o.indentWidth)⟩ :=
    (ofText cs).indent_eq offset o
  obtain ⟨out, hmakes, hlines, htake⟩ := (ofText cs).exists_relaid start stop o.indentWidth
  have hlines : ∀ line, (lines out)[line]? = (lines cs)[line]?.map
      (relaid ((ofText cs).indentEdits start stop o.indentWidth) line) := hlines
  rw [hr]
  refine ⟨out, hmakes, length_lines_of_map hlines, fun line l hl => ?_, fun hbehind => ?_⟩
  · rw [hlines, hl, Option.map_some]
    rcases relaid_cases (d := ofText cs) hle o.indentWidth hl with
      hsame | ⟨hrange, hmore, hstring, n, hnew⟩
    · exact .inl (congrArg some hsame)
    · exact .inr ⟨hrange, hmore, hstring, n, congrArg some hnew⟩
  · exact caret_of_relaid (Nat.min_le_right _ _) hlines htake hbehind

/-- A tab gives way to spaces, and the line after the next follows.  The line inside of the string
stays, and so does the one that has a carriage return behind its margin. -/
theorem indent_changes_margins_tabbed :
    let cs := "(a\n\t(b \"x\n y\"\n \r\n c))\nd".toList
    let o : Edit.Options := { otherEnd := some 22, indentWidth := 3 }
    let start := min 5 cs.length
    let stop := min (max (o.otherEnd.getD start) start) cs.length
    let r := (ofText cs).indent 5 o
    r = ⟨[.deletion 17 1, .insertion 17 (List.replicate 6 ' '), .deletion 3 1,
        .insertion 3 (List.replicate 3 ' ')], 7⟩ ∧
      (∀ l ∈ (lines cs)[(lineColumn cs start).1]?,
        (margin l).length ≤ (lineColumn cs start).2) ∧
      ∃ out, Makes cs r.changes out ∧ (lines out).length = (lines cs).length ∧
        (∀ line l, (lines cs)[line]? = some l → (lines out)[line]? = some l ∨
          ((lineColumn cs start).1 ≤ line ∧ line ≤ (lineColumn cs stop).1) ∧
            ¬MarginOnly l ∧ ¬(ofText cs).ContinuesString line ∧
            ∃ n, (lines out)[line]? = some (List.replicate n ' ' ++ behindMargin l)) ∧
        r.caret ≤ out.length ∧ (lineColumn out r.caret).1 = (lineColumn cs start).1 ∧
          restOfLine out r.caret = restOfLine cs start := by
  intro cs o start stop r
  have hr : r = ⟨[.deletion 17 1, .insertion 17 (List.replicate 6 ' '), .deletion 3 1,
      .insertion 3 (List.replicate 3 ' ')], 7⟩ := by decide +kernel
  have hbehind : ∀ l ∈ (lines cs)[(lineColumn cs start).1]?,
      (margin l).length ≤ (lineColumn cs start).2 := by decide +kernel
  obtain ⟨out, hmakes, hlength, hlines, hcaret⟩ := indent_changes_margins cs 5 o
  exact ⟨hr, hbehind, out, hmakes, hlength, hlines, hcaret hbehind⟩

end Document

end SexpEdit
