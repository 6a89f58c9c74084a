/-
Checked indentation.

How far a line is indented follows from the width that the session is given and from the lines above
it, so here the size of a word does show: a column, or the sum of the shifts of several lines, may
be too large.  It never is when the spaces that an indentation puts in come to no more than a text
may have, and no other fault ever occurs.

* `Change.load` — how many bytes changes put in;
* `Checked.column_gives`, `Checked.targetColumn_gives` — columns;
* `Checked.lineEdits_gives` — a pass over some lines;
* `Checked.indent_gives` — an indentation.
-/
import SexpEdit.Proofs.Checked
import SexpEdit.Proofs.Reindentation

namespace SexpEdit

/-- How many bytes the text of a payload has. -/
def Change.Payload.bytes : Payload → Nat
  | .text cs => Text.byteLength cs
  | .length _ => 0

/-- How many bytes changes put in. -/
def Change.load : List Change → Nat
  | [] => 0
  | c :: cs => c.payload.bytes + load cs

theorem Change.load_append (cs ds : List Change) : load (cs ++ ds) = load cs + load ds := by
  induction cs with
  | nil => exact (Nat.zero_add _).symm
  | cons c cs ih => rw [List.cons_append, load, load, ih, Nat.add_assoc]

/-- How many spaces the edits of some lines put in. -/
def Reindent.spaces : List LineEdit → Nat
  | [] => 0
  | e :: edits => e.after + spaces edits

theorem Reindent.after_le_spaces {edits : List LineEdit} {e : LineEdit} (h : e ∈ edits) :
    e.after ≤ spaces edits := by
  induction edits with
  | nil => cases h
  | cons first edits ih =>
    rw [spaces]
    rcases List.mem_cons.mp h with rfl | h
    · exact Nat.le_add_right _ _
    · exact (ih h).trans (Nat.le_add_left _ _)

namespace Checked

open Text (lineStarts startOf)
open Reindent (LineEdit)

section Indentation

variable {cs : List Char} {d : Document} {edits : List LineEdit} {offset width line : Nat}

/-! ### Columns -/

theorem lineOf_eq (cs : List Char) (offset : Nat) :
    lineOf (lineStarts cs) offset = pure (Text.lineOf (lineStarts cs) offset) := by
  refine minus_eq ?_
  rw [lineStarts, List.takeWhile_cons_of_pos (by simp), List.length_cons]
  omega

/-- The line of an offset starts at the offset or before it. -/
theorem startOf_lineOf_le (cs : List Char) (offset : Nat) :
    startOf (lineStarts cs) (Text.lineOf (lineStarts cs) offset) ≤ offset := by
  have hcolumn := Text.startOf_add_column cs offset
  rw [Text.lineColumn_line] at hcolumn
  omega

theorem item_startOf (h : line < (lineStarts cs).length) :
    item (lineStarts cs) line = pure (startOf (lineStarts cs) line) := by
  rw [startOf, List.getElem?_eq_getElem h, item_eq (List.getElem?_eq_getElem h)]
  rfl

theorem lineOf_mono (cs : List Char) {offset other : Nat} (h : offset ≤ other) :
    Text.lineOf (lineStarts cs) offset ≤ Text.lineOf (lineStarts cs) other := by
  rw [← Text.lineColumn_line, ← Text.lineColumn_line]
  exact Text.line_mono cs h

/-- A text has no more lines than characters, the first apart. -/
theorem lineOf_le (cs : List Char) (offset : Nat) :
    Text.lineOf (lineStarts cs) offset ≤ cs.length := by
  rw [← Text.lineColumn_line, Text.line_eq_count]
  exact List.count_le_length.trans (List.length_take_le' offset cs)

/-- The blanks that an edit takes away are in the text, and the spaces that it puts in can be
counted. -/
def Countable (edits : List LineEdit) : Prop :=
  ∀ e ∈ edits, e.before ≤ maxText ∧ e.after ≤ maxSigned

/-- A line moves left by what it has, and right by what it is given, as `shiftOf` counts it. -/
theorem shiftOf_bounds (h : Countable edits) (line : Nat) :
    -(maxText : Int) ≤ Reindent.shiftOf edits line ∧
      ((∀ e ∈ edits, e.after ≤ maxText) → Reindent.shiftOf edits line ≤ maxText) := by
  rw [Reindent.shiftOf]
  split
  · next e he =>
    have hmem := List.mem_of_find?_eq_some he
    have hbefore := (h e hmem).1
    rw [Reindent.LineEdit.shift]
    refine ⟨by omega, fun hafter => ?_⟩
    have hle := hafter e hmem
    omega
  · omega

theorem column_gives (cs : List Char) (ho : offset ≤ maxText) (h : Countable edits) :
    Gives (∀ e ∈ edits, e.after ≤ maxText) (column (lineStarts cs) edits offset)
      (· = Reindent.column (lineStarts cs) edits offset)
      (Reindent.column (lineStarts cs) edits offset) := by
  obtain ⟨hsmall, -⟩ := maxText_lt_maxSigned
  obtain ⟨hlow, hhigh⟩ := shiftOf_bounds h (Text.lineOf (lineStarts cs) offset)
  rw [column, lineOf_eq, pure_bind, item_startOf (Text.lineOf_lt cs offset), pure_bind,
    minus_eq (startOf_lineOf_le cs offset), pure_bind, signed_eq (by omega)]
  refine (signedPlus_gives (by omega) fun hroom => ?_).bind fun x hx _ => ?_
  · have hshift := hhigh hroom
    omega
  · rw [hx]
    exact .of_eq rfl rfl

theorem targetColumn_gives (cs : List Char) (hd : d.length ≤ maxText) (h : Countable edits)
    (offset width : Nat) :
    Gives ((∀ e ∈ edits, e.after ≤ maxText) ∧
        Reindent.targetColumn d (lineStarts cs) edits offset width ≤ maxWord)
      (targetColumn d (lineStarts cs) edits offset width)
      (· = Reindent.targetColumn d (lineStarts cs) edits offset width)
      (Reindent.targetColumn d (lineStarts cs) edits offset width) := by
  have hcolumn : ∀ {f : Form}, Form.Placed d.tree f → ∀ {room : Prop},
      (room → ∀ e ∈ edits, e.after ≤ maxText) →
      Gives room (column (lineStarts cs) edits f.start)
        (· = Reindent.column (lineStarts cs) edits f.start)
        (Reindent.column (lineStarts cs) edits f.start) := by
    intro f hf room hroom
    have hstop := hf.stop_le
    have hle := f.start_le_stop
    exact (column_gives cs (by omega) h).weaken hroom (fun _ => id) fun _ => rfl
  rw [targetColumn, innermost_eq hd, pure_bind, Reindent.targetColumn]
  cases hlist : d.innermost? offset with
  | none => exact .of_eq rfl rfl
  | some list =>
    obtain ⟨hplaced, -⟩ := Document.framed_of_innermost? hlist
    dsimp only
    refine (hcolumn hplaced fun hroom => hroom.1).bind fun x hx _ => ?_
    subst hx
    cases hforms : list.forms.filter fun f => f.start < offset with
    | nil => exact plus_gives fun hroom => hroom.2
    | cons head args =>
      have hforms : ∀ f ∈ head :: args, Form.Placed d.tree f := by
        intro f hf
        rw [← hforms] at hf
        exact hplaced.of_mem_forms (List.mem_filter.mp hf).1
      have hhead := hforms head (by simp)
      dsimp only
      by_cases hplain : list.kind ≠ .list || !head.isSymbol
      · simp only [if_pos hplain]
        exact hcolumn hhead fun hroom => hroom.1
      · simp only [if_neg hplain, text_eq hhead, pure_bind]
        by_cases hbody : Reindent.isBodyHead head.text
        · simp only [if_pos hbody]
          exact plus_gives fun hroom => hroom.2
        · simp only [if_neg hbody]
          cases args with
          | nil => exact plus_gives fun hroom => hroom.2
          | cons arg args =>
            simp only [lineOf_eq, pure_bind]
            by_cases hline : Text.lineOf (lineStarts cs) arg.start =
                Text.lineOf (lineStarts cs) head.start
            · simp only [if_pos hline]
              exact hcolumn (hforms arg (by simp)) fun hroom => hroom.1
            · simp only [if_neg hline]
              exact plus_gives fun hroom => hroom.2

/-! ### Lines -/

theorem add_length_takeWhile_le {cs : List Char} {start : Nat} (h : start ≤ cs.length)
    (p : Char → Bool) : start + ((cs.drop start).takeWhile p).length ≤ cs.length := by
  have hle := (List.takeWhile_prefix p (l := cs.drop start)).length_le
  rw [List.length_drop] at hle
  omega

theorem lineEdit_gives (hd : d.length ≤ maxText) (h : Countable edits) (width : Nat)
    (hline : line < (lineStarts d.text).length) :
    Gives ((∀ e ∈ edits, e.after ≤ maxText) ∧
        ∀ e ∈ Reindent.lineEdit? d (lineStarts d.text) width edits line, e.after ≤ maxText)
      (lineEdit d (lineStarts d.text) width edits line)
      (fun r => r = Reindent.lineEdit? d (lineStarts d.text) width edits line ∧
        ∀ e ∈ r, e.after ≤ maxSigned)
      (Reindent.lineEdit? d (lineStarts d.text) width edits line) := by
  obtain ⟨hsmall, hword⟩ := maxText_lt_maxSigned
  have hstart : startOf (lineStarts d.text) line ≤ d.length := Text.startOf_le_length d.text line
  rw [lineEdit, item_startOf hline, pure_bind, Reindent.lineEdit?]
  dsimp only
  generalize startOf (lineStarts d.text) line = start at hstart
  by_cases hstring : Reindent.startsInString d start
  · rw [if_pos hstring, if_pos hstring]
    exact .of_eq rfl ⟨rfl, fun _ he => by cases he⟩
  · rw [if_neg hstring, if_neg hstring]
    have hblanks : start + ((d.text.drop start).takeWhile fun c => c == ' ' || c == '\t').length ≤
        d.length := add_length_takeWhile_le hstart _
    generalize (d.text.drop start).takeWhile (fun c => c == ' ' || c == '\t') = blanks at hblanks
    cases (d.text.drop start).drop blanks.length with
    | nil => exact .of_eq rfl ⟨rfl, fun _ he => by cases he⟩
    | cons c rest =>
      dsimp only
      by_cases hend : c = '\n' || c = '\r'
      · rw [if_pos hend, if_pos hend]
        exact .of_eq rfl ⟨rfl, fun _ he => by cases he⟩
      · have hplace : plus start blanks.length = _ := plus_of_le (by omega) (by omega)
        rw [if_neg hend, if_neg hend, hplace, pure_bind, minus_eq (by omega), pure_bind,
          Nat.add_sub_cancel_left]
        have htarget := targetColumn_gives d.text hd h (start + blanks.length) width
        generalize Reindent.targetColumn d (lineStarts d.text) edits (start + blanks.length)
          width = after at htarget
        -- a column that is not the old one is that of an edit, and there is room for its spaces
        have hafter : ((∀ e ∈ edits, e.after ≤ maxText) ∧
            ∀ e ∈ (if after ≠ blanks.length || blanks.any (· == '\t') then
              some (⟨line, start, blanks.length, after⟩ : LineEdit) else none),
              e.after ≤ maxText) → after ≤ maxText := by
          intro hroom
          by_cases hsame : after = blanks.length
          · omega
          · exact hroom.2 ⟨line, start, blanks.length, after⟩ (by simp [hsame])
        refine (htarget.weaken (fun hroom => ⟨hroom.1, ?_⟩) (fun _ => id) fun _ => rfl).bind
          fun x hx _ => ?_
        · have hle := hafter hroom
          omega
        · subst hx
          by_cases hwide : maxSigned < x
          · rw [if_pos hwide]
            refine .outgrown _ rfl rfl fun hroom => ?_
            have hle := hafter hroom
            omega
          · rw [if_neg hwide]
            refine .of_eq rfl ⟨rfl, fun e he => ?_⟩
            split at he
            · cases he
              exact Nat.le_of_not_lt hwide
            · cases he

/-- The edits of the lines above are among the `lineEdits` of a pass. -/
theorem mem_lineEdits_of_mem {starts : List Nat} {count : Nat} {e : LineEdit} (h : e ∈ edits) :
    e ∈ Reindent.lineEdits d starts width edits line count := by
  obtain ⟨new, heq, -⟩ := Reindent.exists_lineEdits d starts width count edits line
  rw [heq]
  exact List.mem_append_left new h

/-- The blanks at the start of a line, `e.before`, are in the text. -/
theorem before_le_of_lineEdit? (hd : d.length ≤ maxText) {e : LineEdit}
    (h : Reindent.lineEdit? d (lineStarts d.text) width edits line = some e) :
    e.before ≤ maxText := by
  obtain ⟨-, hstart, -, hopens⟩ := Reindent.lineEdit?_eq_some h
  have hle : e.start ≤ d.text.length := by
    rw [hstart]
    exact Text.startOf_le_length d.text line
  have hlt := (hopens hle).stop_lt
  rw [Document.length] at hd
  omega

/-- **A pass over some lines** finds the edits of each, or one of them has more than `maxText`
spaces. -/
theorem lineEdits_gives (hd : d.length ≤ maxText) (width count : Nat) :
    ∀ {edits : List LineEdit} {line : Nat}, Countable edits →
      line + count ≤ (lineStarts d.text).length →
      Gives (∀ e ∈ Reindent.lineEdits d (lineStarts d.text) width edits line count,
          e.after ≤ maxText)
        (lineEdits d (lineStarts d.text) width edits line count)
        (fun r => r = Reindent.lineEdits d (lineStarts d.text) width edits line count ∧
          Countable r)
        (Reindent.lineEdits d (lineStarts d.text) width edits line count) := by
  induction count with
  | zero =>
    intro edits line hedits _
    exact .of_eq rfl ⟨rfl, hedits⟩
  | succ count ih =>
    intro edits line hedits hlines
    have hedit := lineEdit_gives hd hedits width (show line < (lineStarts d.text).length by omega)
    rw [lineEdits, Reindent.lineEdits]
    cases hfirst : Reindent.lineEdit? d (lineStarts d.text) width edits line with
    | none =>
      rw [hfirst] at hedit
      refine (hedit.weaken (fun hroom => ⟨fun e he => ?_, fun _ he => by cases he⟩) (fun _ => id)
        fun _ => rfl).bind fun r hr _ => ?_
      · exact hroom e (mem_lineEdits_of_mem he)
      · obtain ⟨rfl, -⟩ := hr
        exact ih hedits (by omega)
    | some first =>
      rw [hfirst] at hedit
      have hmem : ∀ e ∈ edits ++ [first], e ∈ Reindent.lineEdits d (lineStarts d.text) width
          (edits ++ [first]) (line + 1) count := fun e he => mem_lineEdits_of_mem he
      refine (hedit.weaken (fun hroom => ⟨fun e he => ?_, fun e he => ?_⟩) (fun _ => id)
        fun _ => rfl).bind fun r hr _ => ?_
      · exact hroom e (hmem e (List.mem_append_left _ he))
      · cases he
        exact hroom first (hmem first (by simp))
      · obtain ⟨rfl, hafter⟩ := hr
        refine ih (fun e he => ?_) (by omega)
        rcases List.mem_append.mp he with he | he
        · exact hedits e he
        · obtain rfl := List.mem_singleton.mp he
          exact ⟨before_le_of_lineEdit? hd hfirst, hafter e rfl⟩

/-! ### Carrying the caret -/

/-- **Edits in the order of the text** never move an offset below zero: what the lines above a place
lost is no more than what is before it. -/
theorem carryOver_gives (ho : offset ≤ maxText) : ∀ {edits : List LineEdit} (place : Nat)
    {moved : Int}, Countable edits → (∀ e ∈ edits, e.start + e.before ≤ maxText) →
      edits.Pairwise (fun e e' => e.start + e.before < e'.start) → (∀ e ∈ edits, place ≤ e.start) →
      place ≤ offset → 0 ≤ place + moved →
      Gives (moved + (Reindent.spaces edits : Nat) ≤ maxText)
        (carryOver offset moved edits) (fun _ => True) (Reindent.carry offset moved edits)
  | [], place, moved, _, _, _, _, hplace, hmoved => by
    obtain ⟨hsmall, -⟩ := maxText_lt_maxSigned
    rw [Reindent.spaces, carryOver, Reindent.carry, signed_eq (by omega)]
    refine (signedPlus_gives (by omega) fun hroom => by omega).bind fun x hx _ => ?_
    rw [hx, unsigned_eq (by omega)]
    exact .of_eq rfl trivial
  | e :: es, place, moved, hcount, hin, hsorted, hstarts, hplace, hmoved => by
    obtain ⟨hsmall, hword⟩ := maxText_lt_maxSigned
    obtain ⟨hlt, hsorted⟩ := List.pairwise_cons.mp hsorted
    obtain ⟨hbefore, hafter⟩ := hcount e (by simp)
    have hstart := hstarts e (by simp)
    have hstop := hin e (by simp)
    have hshift : e.shift = (e.after : Int) - e.before := rfl
    have hpast : plus e.start e.before = _ := plus_of_le (by omega) (by omega)
    rw [carryOver, hpast, pure_bind, Reindent.carry, Reindent.spaces]
    by_cases hle : e.start + e.before ≤ offset
    · rw [if_pos hle, if_pos hle]
      refine (signedPlus_gives (by omega) fun hroom => by omega).bind fun x hx _ => ?_
      subst hx
      exact (carryOver_gives ho (e.start + e.before) (fun e' he' => hcount e' (by simp [he']))
        (fun e' he' => hin e' (by simp [he'])) hsorted (fun e' he' => Nat.le_of_lt (hlt e' he'))
        hle (by omega)).weaken (fun hroom => by omega) (fun _ => id) fun _ => rfl
    · rw [if_neg hle, if_neg hle]
      by_cases hstarted : e.start ≤ offset
      · have hcaret : plus e.start e.after = _ := plus_eq (by omega)
        rw [if_pos hstarted, if_pos hstarted, hcaret, pure_bind]
        by_cases hfits : e.start + e.after ≤ maxSigned
        · rw [signed_eq hfits]
          refine (signedPlus_gives (by omega) fun hroom => by omega).bind fun x hx _ => ?_
          rw [hx, unsigned_eq (by omega)]
          exact .of_eq rfl trivial
        · -- so many spaces that the place after them is seen as a negative number
          have hnone : ¬moved + ((e.after + Reindent.spaces es : Nat) : Int) ≤ maxText := by
            omega
          exact (signedPlus_of_not hnone _ _ 0).bind fun x _ _ =>
            .value _ rfl trivial fun hroom => absurd hroom hnone
      · rw [if_neg hstarted, if_neg hstarted, signed_eq (by omega)]
        refine (signedPlus_gives (by omega) fun hroom => by omega).bind fun x hx _ => ?_
        rw [hx, unsigned_eq (by omega)]
        exact .of_eq rfl trivial

/-! ### Indentation -/

theorem load_changes (e : LineEdit) : Change.load e.changes = e.after := by
  have hbytes : ∀ n, Text.byteLength (List.replicate n ' ') = n := by
    intro n
    induction n with
    | zero => rfl
    | succ n ih =>
      rw [List.replicate_succ, Text.byteLength, ih, Nat.add_comm]
      rfl
  rw [LineEdit.changes, Change.load_append]
  have hdelete : Change.load (if 0 < e.before then [.deletion e.start e.before] else []) = 0 := by
    split <;> rfl
  rw [hdelete, Nat.zero_add]
  split
  · exact hbytes e.after
  · next hzero =>
    rw [Nat.eq_zero_of_not_pos hzero]
    rfl

theorem load_flatMap_changes (edits : List LineEdit) :
    Change.load (edits.reverse.flatMap LineEdit.changes) = Reindent.spaces edits := by
  induction edits with
  | nil => rfl
  | cons e es ih =>
    rw [List.reverse_cons, List.flatMap_append, Change.load_append, ih, Reindent.spaces,
      List.flatMap_singleton, load_changes, Nat.add_comm]

/-- **An indentation gives its changes**, or they put in more than `maxText` bytes. -/
theorem indent_gives (hd : d.length ≤ maxText) (offset : Nat) (o : Edit.Options) :
    Gives (Change.load (d.indent offset o).changes ≤ maxText) (indent d offset o)
      (fun e => e.changes = (d.indent offset o).changes) (d.indent offset o) := by
  rw [indent, Document.indent]
  dsimp only
  generalize hstart : min offset d.length = start
  generalize hstop : min (max (o.otherEnd.getD start) start) d.length = stop
  have hlines : Text.lineOf (lineStarts d.text) start ≤ Text.lineOf (lineStarts d.text) stop + 1 :=
    Nat.le_succ_of_le (lineOf_mono _ (by omega))
  have hcount := Document.lineOf_add_le d.text start stop
  obtain ⟨hsorted, hopens⟩ := Document.lineEdits_opens d o.indentWidth hcount
  have hnext : plus (Text.lineOf (lineStarts d.text) stop) 1 = _ :=
    plus_of_le ((lineOf_le d.text stop).trans hd) (by decide)
  have hedits := lineEdits_gives hd o.indentWidth _ (show Countable [] from fun _ he => by cases he) hcount
  simp only [lineOf_eq, pure_bind, hnext, minus_eq hlines]
  generalize Reindent.lineEdits d (lineStarts d.text) o.indentWidth []
    (Text.lineOf (lineStarts d.text) start)
    (Text.lineOf (lineStarts d.text) stop + 1 - Text.lineOf (lineStarts d.text) start) = edits
    at hsorted hopens hedits
  rw [load_flatMap_changes]
  refine (hedits.weaken (fun hroom e he => ?_) (fun _ => id) fun _ => rfl).bind fun r hr _ => ?_
  · exact (Reindent.after_le_spaces he).trans hroom
  · obtain ⟨rfl, hcountable⟩ := hr
    have hin : ∀ e ∈ r, e.start + e.before ≤ maxText := fun e he =>
      (Nat.le_of_lt (hopens e he).1.stop_lt).trans hd
    have hcaret := carryOver_gives (show start ≤ maxText by omega) 0 hcountable hin hsorted
      (fun _ _ => Nat.zero_le _) (Nat.zero_le start) (show 0 ≤ ((0 : Nat) : Int) + 0 by decide)
    refine (hcaret.weaken (fun hroom => by omega) (fun _ => id) fun _ => rfl).bind
      fun x _ hx => ?_
    exact .value _ rfl rfl fun hroom => by rw [hx hroom]

end Indentation

end Checked

end SexpEdit
