/-
Indentation keeps the tokens.

The edits of an indentation replace the blanks that lines start with.  Each such line has something
else on it and starts outside of strings, so the tokens before it do not depend on what follows, and
the blanks are tokens of their own.  The edits are made from the bottom up and stand in the order of
the lines, so the blanks of a line are where they were when their turn comes.

* `exists_lineEdits` — the edits of a pass stand in the order of their lines;
* `Reindent.exists_makes` — such edits can all be made;
* `Reindent.Remade.significant` — they keep the significant tokens;
* `Document.indent_keeps_tokens` — indentation changes nothing but whitespace tokens.
-/
import SexpEdit.Edit.Indent
import SexpEdit.Proofs.Columns
import SexpEdit.Proofs.Leaves
import SexpEdit.Proofs.Splicing
import SexpEdit.Proofs.Unspaced

namespace SexpEdit

open Text
open Token (scan significant Fresh widthOf)

theorem Text.blanks_replicate (n : Nat) : ∀ b ∈ List.replicate n ' ', b = ' ' ∨ b = '\t' :=
  fun _ hb => .inl (List.eq_of_mem_replicate hb)

/-! ### The edits of lines -/

namespace Reindent

/-- The edit `e` is about the blanks between an offset and the next character that is none. -/
def LineEdit.Opens (cs : List Char) (e : LineEdit) : Prop :=
  ∃ as bs c rest, cs = as ++ (bs ++ c :: rest) ∧ e.start = as.length ∧ e.before = bs.length ∧
    (∀ b ∈ bs, b = ' ' ∨ b = '\t') ∧ c ≠ '\r'

/-- The `lineEdit?` of a line is about the blanks at its start, and the line starts outside of
strings. -/
theorem lineEdit?_eq_some {d : Document} {starts : List Nat} {width line : Nat}
    {above : List LineEdit} {e : LineEdit} (h : lineEdit? d starts width above line = some e) :
    e.line = line ∧ e.start = startOf starts line ∧ startsInString d e.start = false ∧
      (e.start ≤ d.text.length → e.Opens d.text) := by
  unfold lineEdit? at h
  dsimp only at h
  split at h
  · cases h
  · rename_i hstring
    split at h
    · cases h
    · rename_i c rest hrest
      split at h
      · cases h
      · rename_i hc
        split at h
        · obtain rfl := Option.some.inj h
          refine ⟨rfl, rfl, Bool.eq_false_iff.mpr hstring, fun hle => ?_⟩
          generalize hbs : (d.text.drop (startOf starts line)).takeWhile
            (fun c => c == ' ' || c == '\t') = bs at hrest
          rw [Bool.or_eq_true, decide_eq_true_eq, decide_eq_true_eq, not_or] at hc
          refine ⟨d.text.take (startOf starts line), bs, c, rest, ?_, ?_, rfl, ?_, hc.2⟩
          · have hprefix : bs ++ (d.text.drop (startOf starts line)).drop bs.length =
                d.text.drop (startOf starts line) := by
              rw [← hbs]
              exact List.prefix_iff_eq_append.mp (List.takeWhile_prefix _)
            rw [← hrest, hprefix, List.take_append_drop]
          · rw [List.length_take]
            show startOf starts line = _
            have hle : startOf starts line ≤ d.text.length := hle
            omega
          · intro b hb
            rw [← hbs] at hb
            have hblank := of_mem_takeWhile hb
            rwa [Bool.or_eq_true, beq_iff_eq, beq_iff_eq] at hblank
        · cases h

/-- The `lineEdits` of a pass stand in the order of their lines. -/
theorem exists_lineEdits (d : Document) (starts : List Nat) (width : Nat) (count : Nat) :
    ∀ (above : List LineEdit) (line : Nat), ∃ new,
      lineEdits d starts width above line count = above ++ new ∧
      new.Pairwise (fun e e' => e.line < e'.line) ∧
      ∀ e ∈ new, line ≤ e.line ∧ e.line < line + count ∧
        ∃ above, lineEdit? d starts width above e.line = some e := by
  induction count with
  | zero =>
    intro above line
    exact ⟨[], (List.append_nil above).symm, .nil, by simp⟩
  | succ count ih =>
    intro above line
    rw [lineEdits]
    rcases hedit : lineEdit? d starts width above line with _ | e
    · obtain ⟨new, heq, hsorted, hall⟩ := ih above (line + 1)
      refine ⟨new, heq, hsorted, fun e' he' => ?_⟩
      obtain ⟨hge, hlt, hfrom⟩ := hall e' he'
      exact ⟨by omega, by omega, hfrom⟩
    · obtain ⟨new, heq, hsorted, hall⟩ := ih (above ++ [e]) (line + 1)
      have hline : e.line = line := (lineEdit?_eq_some hedit).1
      refine ⟨e :: new, heq.trans (List.append_assoc above [e] new), .cons ?_ hsorted, ?_⟩
      · intro e' he'
        have hge := (hall e' he').1
        omega
      · intro e' he'
        rcases List.mem_cons.mp he' with rfl | he'
        · exact ⟨by omega, by omega, above, by rw [hline]; exact hedit⟩
        · obtain ⟨hge, hlt, hfrom⟩ := hall e' he'
          exact ⟨by omega, by omega, hfrom⟩

/-- The blanks at the start of a line end before the next line starts. -/
theorem LineEdit.Opens.lt_of_endsLine {cs as bs : List Char} {e : LineEdit} (h : e.Opens cs)
    (hcs : cs = as ++ bs) (hline : EndsLine as) (hlt : e.start < as.length) :
    e.start + e.before < as.length := by
  obtain ⟨xs, ys, c, rest, hsplit, hstart, hbefore, hblank, -⟩ := h
  obtain rfl | ⟨ds, rfl⟩ := hline
  · cases hlt
  refine Decidable.byContradiction fun hge => ?_
  rw [List.length_append, List.length_singleton] at hlt hge
  -- the line feed would be one of the blanks
  have hfeed : cs[ds.length]? = some '\n' := by
    rw [hcs, List.append_assoc, List.getElem?_append_right (Nat.le_refl _), Nat.sub_self]
    rfl
  have hin : ds.length - xs.length < ys.length := by omega
  rw [hsplit, List.getElem?_append_right (by omega), List.getElem?_append_left hin] at hfeed
  rcases hblank '\n' (List.mem_of_getElem? hfeed) with h | h
  · cases h
  · cases h

theorem LineEdit.Opens.stop_lt {cs : List Char} {e : LineEdit} (h : e.Opens cs) :
    e.start + e.before < cs.length := by
  obtain ⟨as, bs, c, rest, rfl, hstart, hbefore, -⟩ := h
  rw [hstart, hbefore, List.length_append, List.length_append, List.length_cons]
  omega

theorem LineEdit.Opens.start_le {cs : List Char} {e : LineEdit} (h : e.Opens cs) :
    e.start ≤ cs.length := by
  obtain ⟨as, bs, c, rest, rfl, hstart, -⟩ := h
  rw [hstart, List.length_append]
  omega

/-- What is after the blanks and the character behind them is nothing to the edit. -/
theorem LineEdit.Opens.congr {as xs : List Char} {e : LineEdit} (h : e.Opens (as ++ xs))
    (hlt : e.start + e.before < as.length) (ys : List Char) : e.Opens (as ++ ys) := by
  obtain ⟨bs, cs, c, rest, hsplit, hstart, hbefore, hblank, hc⟩ := h
  have hleft : bs ++ (cs ++ [c]) <+: as ++ xs := ⟨rest, by simp [hsplit]⟩
  have hlen : (bs ++ (cs ++ [c])).length ≤ as.length := by
    simp only [List.length_append, List.length_singleton]
    omega
  obtain ⟨m, rfl⟩ := List.prefix_of_prefix_length_le hleft (List.prefix_append as xs) hlen
  exact ⟨bs, cs, c, m ++ ys, by simp, hstart, hbefore, hblank, hc⟩

/-- The `changes` of an edit put spaces in the place of the blanks. -/
theorem LineEdit.makes {as bs rest : List Char} {e : LineEdit} (hstart : e.start = as.length)
    (hbefore : e.before = bs.length) :
    Makes (as ++ (bs ++ rest)) e.changes (as ++ (List.replicate e.after ' ' ++ rest)) := by
  have hinsert : Makes (as ++ rest)
      (if 0 < e.after then [.insertion e.start (List.replicate e.after ' ')] else [])
      (as ++ (List.replicate e.after ' ' ++ rest)) := by
    by_cases hafter : 0 < e.after
    · rw [if_pos hafter]
      exact Makes.insertion as rest rfl hstart (.nil _)
    · have hzero : e.after = 0 := by omega
      rw [if_neg hafter, hzero]
      exact .nil _
  by_cases hpos : 0 < e.before
  · rw [changes, if_pos hpos]
    exact Makes.deletion as bs rest rfl hstart hbefore hinsert
  · have hnil : bs = [] := List.length_eq_zero_iff.mp (by omega)
    rw [changes, if_neg hpos, hnil]
    exact hinsert

/-- What edits make of a text, the last of them first: each puts spaces in the place of blanks.  Of
an edit and the text before it `Q` holds. -/
inductive Remade (Q : LineEdit → List Char → Prop) :
    List LineEdit → List Char → List Char → Prop
  | nil {cs : List Char} : Remade Q [] cs cs
  | snoc {edits : List LineEdit} {e : LineEdit} {as bs rest out : List Char} {c : Char} :
      Q e as → e.before = bs.length → (∀ b ∈ bs, b = ' ' ∨ b = '\t') → c ≠ '\r' →
      Remade Q edits (as ++ (List.replicate e.after ' ' ++ c :: rest)) out →
      Remade Q (edits ++ [e]) (as ++ (bs ++ c :: rest)) out

/-- Edits in the order of the text can all be made from the last one on. -/
theorem exists_makes {Q : LineEdit → List Char → Prop} {edits : List LineEdit} :
    ∀ {cs : List Char}, edits.Pairwise (fun e e' => e.start + e.before < e'.start) →
      (∀ e ∈ edits, e.Opens cs ∧ Q e (cs.take e.start)) →
      ∃ out, Makes cs (edits.reverse.flatMap LineEdit.changes) out ∧ Remade Q edits cs out := by
  -- on the edits from the last one down: making it leaves the text before it as it was
  induction edits using List.reverseRecOn with
  | nil =>
    intro cs _ _
    exact ⟨cs, .nil cs, .nil⟩
  | append_singleton edits e ih =>
    intro cs hsorted hall
    obtain ⟨hsorted, -, hlast⟩ := List.pairwise_append.mp hsorted
    obtain ⟨⟨as, bs, c, rest, rfl, hstart, hbefore, hblank, hc⟩, hq⟩ := hall e (by simp)
    let mid := as ++ (List.replicate e.after ' ' ++ c :: rest)
    have hmid : ∀ e' ∈ edits, e'.Opens mid ∧ Q e' (mid.take e'.start) := by
      intro e' he'
      obtain ⟨hopens, hq'⟩ := hall e' (by simp [he'])
      have hlt : e'.start + e'.before < as.length := by
        rw [← hstart]
        exact hlast e' he' e (by simp)
      refine ⟨hopens.congr hlt _, ?_⟩
      rw [List.take_append_of_le_length (by omega)] at hq'
      show Q e' ((as ++ _).take e'.start)
      rw [List.take_append_of_le_length (by omega)]
      exact hq'
    obtain ⟨out, hout, hremade⟩ := ih hsorted hmid
    refine ⟨out, ?_, .snoc ?_ hbefore hblank hc hremade⟩
    · rw [List.reverse_append, List.reverse_singleton, List.singleton_append, List.flatMap_cons]
      exact (LineEdit.makes hstart hbefore).append hout
    · rwa [hstart, List.take_left] at hq

/-- Where the text before each edit is `Fresh`, the `significant` tokens stay. -/
theorem Remade.significant {Q : LineEdit → List Char → Prop}
    (hfresh : ∀ {e : LineEdit} {as : List Char}, Q e as → Fresh as) {edits : List LineEdit}
    {cs out : List Char} (h : Remade Q edits cs out) :
    significant (scan out) = significant (scan cs) := by
  induction h with
  | nil => rfl
  | @snoc edits e as bs rest out c hq _ hblank hc _ ih =>
    rw [ih, ← Token.map_fst_spots (scan (as ++ (bs ++ c :: rest))) 0, ← Token.map_fst_spots _ 0,
      Token.spots_scan_line (hfresh hq) hblank hc,
      Token.spots_scan_line (hfresh hq) (blanks_replicate e.after) hc, List.map_append,
      List.map_append, Token.map_fst_spots (scan (c :: rest)),
      Token.map_fst_spots (scan (c :: rest))]

end Reindent

/-! ### A whole pass -/

namespace Document

open Reindent

/-- A line that starts inside a string is seen to do so by `startsInString`. -/
theorem startsInString_of_inString {d : Document} {n : Nat} (h : Token.InString d.text n) :
    startsInString d n = true := by
  obtain ⟨ts, t, us, hsplit, hlt, hgt, hk⟩ := h
  obtain ⟨l, -, hleaf, rfl, hstart⟩ := leafAt?_of_split hsplit (by omega) hgt
  have hlt : l.start < n := by omega
  rw [startsInString, hleaf]
  simp [Leaf.kind, hk, hlt]

theorem inString_of_startsInString {d : Document} {n : Nat} (h : startsInString d n = true) :
    Token.InString d.text n := by
  rw [startsInString] at h
  split at h
  · rename_i l hleaf
    obtain ⟨ts, us, hsplit, hstart⟩ := exists_split_of_mem (List.mem_of_find?_eq_some hleaf)
    have hcover := List.find?_some hleaf
    rw [Bool.and_eq_true, decide_eq_true_eq] at h
    rw [Bool.and_eq_true, decide_eq_true_eq, decide_eq_true_eq, Leaf.stop] at hcover
    exact ⟨ts, l.token, us, hsplit, by omega, by omega, h.1⟩
  · cases h

/-- The `lineEdits` of a pass over lines of the text stand in the order of the text, each at the
start of its line outside of strings. -/
theorem lineEdits_opens (d : Document) (width : Nat) {first count : Nat}
    (h : first + count ≤ (lineStarts d.text).length) :
    (lineEdits d (lineStarts d.text) width [] first count).Pairwise
        (fun e e' => e.start + e.before < e'.start) ∧
      ∀ e ∈ lineEdits d (lineStarts d.text) width [] first count,
        e.Opens d.text ∧ EndsLine (d.text.take e.start) ∧
          lineColumn d.text e.start = (e.line, 0) ∧ startsInString d e.start = false := by
  obtain ⟨edits, heq, hsorted, hall⟩ :=
    exists_lineEdits d (lineStarts d.text) width count [] first
  rw [List.nil_append] at heq
  have hplace : ∀ e ∈ edits, e.line < (lineStarts d.text).length ∧
      e.start = startOf (lineStarts d.text) e.line ∧ e.Opens d.text ∧
      startsInString d e.start = false := by
    intro e he
    obtain ⟨hge, hlt, above, hedit⟩ := hall e he
    obtain ⟨-, hstart, hstring, hopens⟩ := lineEdit?_eq_some hedit
    refine ⟨by omega, hstart, hopens ?_, hstring⟩
    rw [hstart]
    exact startOf_le_length d.text e.line
  rw [heq]
  refine ⟨?_, ?_⟩
  · refine hsorted.imp_of_mem fun {e e'} he he' hlt => ?_
    obtain ⟨-, hstart, hopens, -⟩ := hplace e he
    obtain ⟨hline', hstart', -⟩ := hplace e' he'
    obtain ⟨as, bs, htext, hlen, hends⟩ := exists_startOf d.text e'.line
    have hbefore := startOf_lt hlt hline'
    rw [hstart', hlen]
    refine hopens.lt_of_endsLine htext hends ?_
    rw [← hlen, hstart]
    exact hbefore
  · intro e he
    obtain ⟨hline, hstart, hopens, hstring⟩ := hplace e he
    refine ⟨hopens, ?_, ?_, hstring⟩
    · obtain ⟨as, bs, htext, hlen, hends⟩ := exists_startOf d.text e.line
      rw [hstart, hlen, htext, List.take_left]
      exact hends
    · rw [hstart]
      exact lineColumn_startOf hline

/-- The lines of an indentation are lines of the text. -/
theorem lineOf_add_le (cs : List Char) (start stop : Nat) :
    lineOf (lineStarts cs) start +
        (lineOf (lineStarts cs) stop + 1 - lineOf (lineStarts cs) start) ≤
      (lineStarts cs).length := by
  have hstart := lineOf_lt cs start
  have hstop := lineOf_lt cs stop
  omega

/-- The text before a line that starts outside of strings is `Fresh`. -/
theorem fresh_take {d : Document} (hterm : ∀ t ∈ scan d.text, t.kind ≠ .unterminatedString)
    {n : Nat} (hn : n ≤ d.text.length) (hends : EndsLine (d.text.take n))
    (hstring : startsInString d n = false) : Fresh (d.text.take n) := by
  refine Token.fresh_of_endsLine hterm (List.take_append_drop n d.text).symm hends ?_
  rw [List.length_take, Nat.min_eq_left hn]
  intro hin
  rw [startsInString_of_inString hin] at hstring
  cases hstring

/-- The changes of an `indent` can be made in any text. -/
theorem indent_makes (d : Document) (offset : Nat) (o : Edit.Options) :
    ∃ out, Makes d.text (d.indent offset o).changes out ∧
      ((∀ t ∈ scan d.text, t.kind ≠ .unterminatedString) →
        significant (scan out) = significant (scan d.text)) := by
  obtain ⟨hsorted, hall⟩ := lineEdits_opens d o.indentWidth (lineOf_add_le d.text _ _)
  let Q (_ : LineEdit) (as : List Char) : Prop :=
    (∀ t ∈ scan d.text, t.kind ≠ .unterminatedString) → Fresh as
  obtain ⟨out, hmakes, hremade⟩ := exists_makes (Q := Q) hsorted fun e he => by
    obtain ⟨hopens, hends, -, hstring⟩ := hall e he
    exact ⟨hopens, fun hterm => fresh_take hterm hopens.start_le hends hstring⟩
  exact ⟨out, hmakes, fun hterm => hremade.significant fun hq => hq hterm⟩

/-- **Indentation keeps the tokens.**  In a text whose strings all end, the changes of an
indentation, wherever it starts and ends and however wide it is, can all be made.  The text has the
same tokens after them, whitespace apart, and the same tree once the whitespace is left out. -/
theorem indent_keeps_tokens {cs : List Char}
    (hterm : ∀ t ∈ scan cs, t.kind ≠ .unterminatedString) (offset : Nat) (o : Edit.Options)
    (language : String) :
    ∃ commands host, Change.commands ((ofText cs).indent offset o).changes = .ok commands ∧
      (Host.ofBuffer (.ofText language cs)).applyAll commands = (.ok true, host) ∧
      significant (scan host.text) = significant (scan cs) ∧
      (Tree.parse host.text).unspaced = (Tree.parse cs).unspaced := by
  obtain ⟨out, ⟨commands, hcommands, hsplice⟩, hkeep⟩ := (ofText cs).indent_makes offset o
  have hkeep : significant (scan out) = significant (scan cs) := hkeep hterm
  obtain ⟨host, hrun, rfl⟩ :=
    Host.applyAll_of_spliceAll? (h := Host.ofBuffer (.ofText language cs)) ⟨rfl, rfl⟩ hsplice
  refine ⟨commands, host, hcommands, hrun, hkeep, ?_⟩
  rw [Tree.parse, Tree.parse, Tree.unspaced_read, Tree.unspaced_read, hkeep]

/-- A tab and the blanks before a comma are replaced; a line inside a string is left alone, and the
opener in a comment opens nothing. -/
theorem indent_keeps_tokens_tabbed :
    let cs := ['(', 'a', ' ', '"', 'x', '\n', ' ', 'y', '"', ' ', ';', '(', '\n', '\t', ' ', 'b',
      '\n', ' ', ' ', ',', '\'', ' ', 'd', ')']
    let o : Edit.Options := { otherEnd := some 40, indentWidth := 3 }
    (∀ t ∈ scan cs, t.kind ≠ .unterminatedString) ∧
      ((ofText cs).indent 0 o).changes =
        [.deletion 17 2, .insertion 17 [' ', ' ', ' '], .deletion 13 2,
          .insertion 13 [' ', ' ', ' ']] ∧
      ∃ commands host, Change.commands ((ofText cs).indent 0 o).changes = .ok commands ∧
        (Host.ofBuffer (.ofText "clojure" cs)).applyAll commands = (.ok true, host) ∧
        significant (scan host.text) = significant (scan cs) ∧
        (Tree.parse host.text).unspaced = (Tree.parse cs).unspaced := by
  intro cs o
  have hterm : ∀ t ∈ scan cs, t.kind ≠ .unterminatedString := by decide +kernel
  exact ⟨hterm, by decide +kernel, indent_keeps_tokens hterm 0 o "clojure"⟩

end Document

end SexpEdit
