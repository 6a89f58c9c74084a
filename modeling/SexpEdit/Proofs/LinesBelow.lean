/-
The lines below a kill.

After a kill the lines it touched are indented.  Which lines these are is told by the offsets of the
killed span in the text before the kill, while the lines are looked up in the text after it.  There
the span is gone, and its last offset lies as far behind the cursor as the span was long.  The
indentation so goes on below the line where the span ended, by as many lines as there are line feeds
in the text behind the span that is as long as the span.  Lines further below stay as they are.

* `Document.drop_lines_of_indent` — an indentation keeps the lines below its last end;
* `Host.runEdit_kill` — the text after a kill forward is that without the span, indented;
* `Session.kill_keeps_lines_below` — how far below a kill lines may get another margin;
* `Session.kill_reindents_line_below` — the line below the killed span can be one of them.
-/
import SexpEdit.Proofs.Margins
import SexpEdit.Proofs.SafeRun

namespace SexpEdit

open Text

/-! ### The lines of a text without a span -/

namespace Text

/-- Without a span, an offset as far behind the place of the span as the span was long is below that
place by the line feeds between. -/
theorem line_stop_of_cut {cs : List Char} {offset stop : Nat} (hle : offset ≤ stop)
    (hstop : stop ≤ cs.length) :
    (lineColumn (cs.take offset ++ cs.drop stop) stop).1 =
      (lineColumn cs offset).1 + ((cs.drop stop).take (stop - offset)).count '\n' := by
  have hlength : (cs.take offset).length = offset := List.length_take_of_le (hle.trans hstop)
  rw [line_eq_count, line_eq_count, List.take_append, hlength,
    List.take_of_length_le (hlength.trans_le hle), List.count_append]

/-- The `lines` below a span are also the last ones of the text without it. -/
theorem drop_lines_cut (cs : List Char) (offset stop n : Nat) :
    (lines (cs.take offset ++ cs.drop stop)).drop ((lineColumn cs offset).1 + (n + 1)) =
      (lines cs).drop ((lineColumn cs stop).1 + (n + 1)) := by
  rw [line_eq_count, line_eq_count, drop_lines_append]
  calc (lines (cs.drop stop)).drop (n + 1)
    _ = (lines (cs.take stop ++ cs.drop stop)).drop ((cs.take stop).count '\n' + (n + 1)) :=
      (drop_lines_append _ _ n).symm
    _ = (lines cs).drop ((cs.take stop).count '\n' + (n + 1)) := by rw [List.take_append_drop]

end Text

/-! ### Indenting between two offsets -/

namespace Document

variable {cs out : List Char} {start stop width : Nat}

/-- The `lines` of the text that an indentation between two offsets makes. -/
theorem getElem?_lines_of_indent
    (h : Makes cs
      ((ofText cs).indent start { otherEnd := some stop, indentWidth := width }).changes out)
    (line : Nat) :
    (lines out)[line]? =
      (lines cs)[line]?.map (Reindent.relaid ((ofText cs).indentEdits start stop width) line) := by
  obtain ⟨out', hmakes, hlines, -⟩ := (ofText cs).exists_relaid start stop width
  rw [indent_changes] at h
  rw [h.unique hmakes]
  exact hlines line

/-- An `indent` between two offsets gives lines other margins, from the line of the one to the line
of the other. -/
theorem line_of_indent
    (h : Makes cs
      ((ofText cs).indent start { otherEnd := some stop, indentWidth := width }).changes out)
    (hle : start ≤ stop) {line : Nat} {l : List Char} (hl : (lines cs)[line]? = some l) :
    (lines out)[line]? = some l ∨
      ((lineColumn cs start).1 ≤ line ∧ line ≤ (lineColumn cs stop).1) ∧
        ∃ n, (lines out)[line]? = some (List.replicate n ' ' ++ behindMargin l) := by
  rw [getElem?_lines_of_indent h, hl, Option.map_some]
  rcases relaid_cases (d := ofText cs) hle width hl with hsame | ⟨hrange, -, -, n, hnew⟩
  · exact .inl (congrArg some hsame)
  · exact .inr ⟨hrange, n, congrArg some hnew⟩

/-- An `indent` keeps the lines below the one of its last end. -/
theorem drop_lines_of_indent
    (h : Makes cs
      ((ofText cs).indent start { otherEnd := some stop, indentWidth := width }).changes out)
    (hle : start ≤ stop) :
    (lines out).drop ((lineColumn cs stop).1 + 1) =
      (lines cs).drop ((lineColumn cs stop).1 + 1) := by
  refine List.ext_getElem? fun n => ?_
  rw [List.getElem?_drop, List.getElem?_drop]
  cases hl : (lines cs)[(lineColumn cs stop).1 + 1 + n]? with
  | none =>
    rw [getElem?_lines_of_indent h, hl]
    rfl
  | some l =>
    rcases line_of_indent h hle hl with hsame | ⟨⟨-, hlast⟩, -⟩
    · exact hsame
    · omega

end Document

/-! ### Killing forward -/

namespace Document

/-- A forward `kill?` at a cursor takes away what is between the cursor and an offset behind it. -/
theorem exists_stop_of_kill? {d : Document} {offset : Nat} {e : Edit}
    (h : d.kill? offset {} = some e) :
    ∃ stop, e = ⟨[.deletion offset (stop - offset)], offset⟩ ∧ offset < stop ∧
      stop ≤ d.length := by
  rcases kill?_eq_some h with ⟨start, stop, hregion, -⟩ | ⟨hback, -⟩ |
    ⟨f, hf, stop, hlt, rfl, hstop⟩
  · cases hregion
  · cases hback
  · have hle := stop_le_of_mem_container hf
    refine ⟨stop, rfl, hlt, ?_⟩
    rcases hstop with rfl | ⟨-, rfl, -⟩
    · exact hle
    · omega

end Document

namespace Host

variable {h : Host} {offset : Nat}

/-- The text after a kill forward is the text without the killed span, with the lines indented that
are in it between the two ends of the span. -/
theorem runEdit_kill (hopen : h.Open) (hcaret : h.buffer.selection = .caret offset)
    (hoffset : offset ≤ h.length) (width : Nat) :
    (h.document.kill? offset {} = none ∧
        h.runEdit (StructuralEdit.kill false).at? false width = (.ok .unchanged, h)) ∨
      ∃ stop h', h.document.kill? offset {} = some ⟨[.deletion offset (stop - offset)], offset⟩ ∧
        offset < stop ∧ stop ≤ h.length ∧
        h.runEdit (StructuralEdit.kill false).at? false width = (.ok (.edited true), h') ∧
        Makes (h.text.take offset ++ h.text.drop stop)
          ((Document.ofText (h.text.take offset ++ h.text.drop stop)).indent offset
            { otherEnd := some stop, indentWidth := width }).changes h'.text := by
  have hlive : h.currentSelection = .caret offset := by
    rw [currentSelection, hcaret, Selection.clamp]
    simp [Selection.caret, Selection.between, Selection.anchor, Nat.min_eq_left hoffset]
  have hat : (StructuralEdit.kill false).at? h.document offset { indentWidth := width } =
      h.document.kill? offset {} := rfl
  simp only [runEdit, hlive, Selection.caret, if_true, hat]
  cases hkill : h.document.kill? offset {} with
  | none => exact .inl ⟨rfl, rfl⟩
  | some e =>
    obtain ⟨stop, rfl, hlt, hstop⟩ := Document.exists_stop_of_kill? hkill
    have hstop : stop ≤ h.text.length := hstop
    have hsplice : Command.spliceAll? h.text [.delete offset (stop - offset)] =
        some (h.text.take offset ++ h.text.drop stop) := by
      rw [Command.spliceAll?_cons, Command.splice?, if_pos (by omega),
        Nat.add_sub_of_le (Nat.le_of_lt hlt)]
      rfl
    have hcommands : Change.commands [.deletion offset (stop - offset)] =
        .ok [.delete offset (stop - offset)] := rfl
    obtain ⟨h', hperform, -, hmakes⟩ := perform_makes hopen
      (e := ⟨[.deletion offset (stop - offset)], offset⟩) hcommands hsplice false width
    have htouched : Command.touched? [.delete offset (stop - offset)] = some (offset, stop) := by
      rw [Command.touched?, Command.touched?, Command.start, Command.stop,
        Nat.add_sub_of_le (Nat.le_of_lt hlt)]
    rw [if_neg Bool.false_ne_true, Command.settling, htouched] at hmakes
    exact .inr ⟨stop, h', rfl, hlt, hstop, hperform, hmakes⟩

end Host

namespace Session

/-- **How far below a kill lines are indented.**  With structural editing on for the language, a
kill forward at a cursor in the text does nothing, or it takes a span away.  Let there be `k` line feeds
behind the span, in a text as long as the span.  Then all lines stay that are further below the line
on which the span ends than `k` lines.  The line of the cursor and the `k` lines below it are as in
the text without the span, or have another margin.

When the line of the span goes on for as long as the span is, this is all: no line below it
changes. -/
theorem kill_keeps_lines_below {s : Session} {h : Host} {offset : Nat} (hon : s.enabled = true)
    (hlanguage : s.supports h.buffer.language = true) (hopen : h.Open)
    (hcaret : h.buffer.selection = .caret offset) (hoffset : offset ≤ h.length) (c : Clipboard) :
    (h.document.kill? offset {} = none ∧
        s.run (.edit (.kill false)) h c = (.ok .unchanged, s, h, c)) ∨
      ∃ stop h', h.document.kill? offset {} = some ⟨[.deletion offset (stop - offset)], offset⟩ ∧
        offset < stop ∧ stop ≤ h.length ∧
        s.run (.edit (.kill false)) h c = (.ok (.edited true), s, h', c) ∧
        let k := ((h.text.drop stop).take (stop - offset)).count '\n'
        (lines h'.text).drop ((lineColumn h.text offset).1 + (k + 1)) =
            (lines h.text).drop ((lineColumn h.text stop).1 + (k + 1)) ∧
          ∀ line l, (lines (h.text.take offset ++ h.text.drop stop))[line]? = some l →
            (lines h'.text)[line]? = some l ∨
              ((lineColumn h.text offset).1 ≤ line ∧ line ≤ (lineColumn h.text offset).1 + k) ∧
                ∃ n, (lines h'.text)[line]? = some (List.replicate n ' ' ++ behindMargin l) := by
  have hrun : s.run (.edit (.kill false)) h c =
      ((h.runEdit (StructuralEdit.kill false).at? false s.indentWidth).1, s,
        (h.runEdit (StructuralEdit.kill false).at? false s.indentWidth).2, c) := by
    rw [run, hon, hlanguage]
    rfl
  rw [hrun]
  rcases Host.runEdit_kill hopen hcaret hoffset s.indentWidth with ⟨hnone, hedit⟩ |
    ⟨stop, h', hsome, hlt, hstop, hedit, hmakes⟩
  · rw [hedit]
    exact .inl ⟨hnone, rfl⟩
  · rw [hedit]
    refine .inr ⟨stop, h', hsome, hlt, hstop, rfl, ?_⟩
    intro k
    have hlength : (h.text.take offset).length = offset := List.length_take_of_le hoffset
    have hfirst : (lineColumn (h.text.take offset ++ h.text.drop stop) offset).1 =
        (lineColumn h.text offset).1 := by
      rw [line_eq_count, line_eq_count, List.take_left' hlength]
    have hlast : (lineColumn (h.text.take offset ++ h.text.drop stop) stop).1 =
        (lineColumn h.text offset).1 + k := line_stop_of_cut (Nat.le_of_lt hlt) hstop
    refine ⟨?_, fun line l hl => ?_⟩
    · have hbelow := Document.drop_lines_of_indent hmakes (Nat.le_of_lt hlt)
      rw [hlast, Nat.add_assoc] at hbelow
      rw [hbelow, drop_lines_cut]
    · have hline := Document.line_of_indent hmakes (Nat.le_of_lt hlt) hl
      rwa [hfirst, hlast] at hline

/-- The kill of one character is followed by a line feed, so the line below is indented; the line
after the next stays. -/
theorem kill_keeps_lines_below_next :
    let h := Host.ofBuffer
      { Buffer.ofText "clojure" "(a b\n c\n d)".toList with selection := .caret 3 }
    h.document.kill? 3 {} = some ⟨[.deletion 3 1], 3⟩ ∧
      ∃ h', ({} : Session).run (.edit (.kill false)) h {} = (.ok (.edited true), {}, h', {}) ∧
        (lines h'.text).drop 2 = [" d)".toList] := by
  intro h
  have hkill : h.document.kill? 3 {} = some ⟨[.deletion 3 1], 3⟩ := by decide +kernel
  refine ⟨hkill, ?_⟩
  have hcaret : h.buffer.selection = .caret 3 := rfl
  have hlanguage : ({} : Session).supports h.buffer.language = true := by decide
  have hoffset : 3 ≤ h.length := by decide
  rcases kill_keeps_lines_below rfl hlanguage ⟨rfl, rfl⟩ hcaret hoffset {} with
    ⟨hnone, -⟩ | ⟨stop, h', hsome, -, -, hrun, hbelow, -⟩
  · rw [hkill] at hnone
    cases hnone
  · have hstop : stop = 4 := by
      rw [hkill] at hsome
      simp only [Option.some.injEq, Edit.mk.injEq, List.cons.injEq, Change.deletion,
        Change.mk.injEq, Change.Payload.length.injEq] at hsome
      omega
    subst hstop
    have hline : (lineColumn h.text 3).1 + (((h.text.drop 4).take (4 - 3)).count '\n' + 1) = 2 := by
      decide +kernel
    have hlast : (lines h.text).drop
        ((lineColumn h.text 4).1 + (((h.text.drop 4).take (4 - 3)).count '\n' + 1)) =
          [" d)".toList] := by decide +kernel
    rw [hline, hlast] at hbelow
    exact ⟨h', hrun, hbelow⟩

/-- The line below the killed span does not stay: the kill of `b` moves it. -/
theorem kill_reindents_line_below :
    let h := Host.ofBuffer
      { Buffer.ofText "clojure" "(a b\n c)".toList with selection := .caret 3 }
    let h' := (({} : Session).run (.edit (.kill false)) h {}).2.2.1
    h.document.kill? 3 {} = some ⟨[.deletion 3 1], 3⟩ ∧
      (lines h.text).drop ((lineColumn h.text 4).1 + 1) = [" c)".toList] ∧
      lines h'.text = ["(a ".toList, "  c)".toList] ∧
      ¬[" c)".toList] <:+ lines h'.text := by
  decide +kernel

end Session

end SexpEdit
