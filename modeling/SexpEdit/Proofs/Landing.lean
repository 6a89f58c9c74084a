/-
Edits land in the text.

An edit is a list of changes and a caret.  Structural edits fit their document, as `Fitting` shows
by lengths alone.  An indentation is made of many small edits, one for each line it touches, and its
caret is the start of it carried along them: an offset loses no more than the blanks before it, so
it stays in the text.

* `Reindent.Remade.length_eq` — how long a text is after line edits;
* `Reindent.carry_le` — an offset carried along line edits stays in the text they make;
* `Document.edits_land_in_text` — every change of every edit is made in the text that the changes
  before it left, and the caret is in the last of these texts.
-/
import SexpEdit.Proofs.Fitting
import SexpEdit.Proofs.Reindentation

namespace SexpEdit

/-- The changes of an edit stand for commands, each of which lies in the text that the commands
before it left, and the caret lies in the text after them all. -/
def Edit.LandsIn (cs : List Char) (r : Edit) : Prop :=
  ∃ commands out, Change.commands r.changes = .ok commands ∧
    Command.spliceAll? cs commands = some out ∧ r.caret ≤ out.length

theorem Edit.Fits.landsIn {cs : List Char} {r : Edit} (h : r.Fits cs.length) : r.LandsIn cs := by
  obtain ⟨out, hmakes⟩ := h.changes.exists_makes rfl
  have hlength := hmakes.length_eq
  obtain ⟨commands, hcommands, hsplice⟩ := hmakes
  refine ⟨commands, out, hcommands, hsplice, ?_⟩
  rw [hlength]
  exact h.caret

/-! ### Line edits -/

namespace Reindent

/-- How far edits move what stands behind all of them. -/
def totalShift : List LineEdit → Int
  | [] => 0
  | e :: edits => e.shift + totalShift edits

theorem totalShift_append (edits edits' : List LineEdit) :
    totalShift (edits ++ edits') = totalShift edits + totalShift edits' := by
  induction edits with
  | nil =>
    show totalShift edits' = 0 + totalShift edits'
    omega
  | cons e edits ih =>
    show e.shift + totalShift (edits ++ edits') = e.shift + totalShift edits + _
    omega

/-- A text grows by the `totalShift` of its lines. -/
theorem Remade.length_eq {Q : LineEdit → List Char → Prop} {edits : List LineEdit}
    {cs out : List Char} (h : Remade Q edits cs out) :
    (out.length : Int) = cs.length + totalShift edits := by
  induction h with
  | nil =>
    show _ = _ + (0 : Int)
    omega
  | @snoc edits e as bs rest out c _ hbefore _ _ _ ih =>
    have hlast : totalShift [e] = (e.after : Int) - e.before + 0 := rfl
    rw [totalShift_append, hlast, ih]
    simp only [List.length_append, List.length_replicate, hbefore]
    omega

/-- What stands before every edit is not beyond the end of the text: edits take away blanks, and
these are all there. -/
theorem le_add_totalShift {n : Nat} : ∀ {edits : List LineEdit} {place : Nat},
    edits.Pairwise (fun e e' => e.start + e.before < e'.start) →
      (∀ e ∈ edits, place ≤ e.start ∧ e.start + e.before ≤ n) → place ≤ n →
      (place : Int) ≤ n + totalShift edits := by
  intro edits
  induction edits with
  | nil =>
    intro place _ _ hplace
    show (place : Int) ≤ n + 0
    omega
  | cons e edits ih =>
    intro place hsorted hall _
    obtain ⟨hlt, hsorted⟩ := List.pairwise_cons.mp hsorted
    obtain ⟨hstart, hend⟩ := hall e (by simp)
    have hrest : ((e.start + e.before : Nat) : Int) ≤ n + totalShift edits := by
      refine ih hsorted (fun e' he' => ⟨Nat.le_of_lt (hlt e' he'), ?_⟩) hend
      exact (hall e' (by simp [he'])).2
    show (place : Int) ≤ n + ((e.after : Int) - e.before + totalShift edits)
    omega

/-- An offset carried along edits stays in the text, if the edits before these moved it by `moved`
and the whole text as much. -/
theorem carry_le {offset n : Nat} (hoffset : offset ≤ n) :
    ∀ {edits : List LineEdit} {moved : Int},
      edits.Pairwise (fun e e' => e.start + e.before < e'.start) →
      (∀ e ∈ edits, e.start + e.before ≤ n) → 0 ≤ n + moved + totalShift edits →
      (carry offset moved edits : Int) ≤ n + moved + totalShift edits := by
  intro edits
  induction edits with
  | nil =>
    intro moved _ _ hmoved
    have hzero : totalShift [] = 0 := rfl
    rw [carry]
    omega
  | cons e edits ih =>
    intro moved hsorted hall hmoved
    obtain ⟨hlt, hrest⟩ := List.pairwise_cons.mp hsorted
    have hsum : totalShift (e :: edits) = (e.after : Int) - e.before + totalShift edits := rfl
    have hshift : e.shift = (e.after : Int) - e.before := rfl
    have hend := hall e (by simp)
    -- what comes after the blanks of this line is not beyond the end either
    have hbehind : ((e.start + e.before : Nat) : Int) ≤ n + totalShift edits := by
      refine le_add_totalShift hrest (fun e' he' => ⟨Nat.le_of_lt (hlt e' he'), ?_⟩) hend
      exact hall e' (by simp [he'])
    rw [carry]
    by_cases hpast : e.start + e.before ≤ offset
    · rw [if_pos hpast]
      have hcarry := @ih (moved + e.shift) hrest (fun e' he' => hall e' (by simp [he']))
        (by omega)
      omega
    · rw [if_neg hpast]
      by_cases hin : e.start ≤ offset
      · rw [if_pos hin]
        omega
      · rw [if_neg hin]
        omega

end Reindent

/-! ### Every edit -/

namespace Document

open Reindent

/-- The caret of `indent` is in the indented text. -/
theorem indent_landsIn (d : Document) (offset : Nat) (o : Edit.Options) :
    (d.indent offset o).LandsIn d.text := by
  obtain ⟨hsorted, hall⟩ := lineEdits_opens d o.indentWidth (lineOf_add_le d.text _ _)
  obtain ⟨out, ⟨commands, hcommands, hsplice⟩, hremade⟩ :=
    Reindent.exists_makes (Q := fun _ _ => True) hsorted fun e he => ⟨(hall e he).1, trivial⟩
  refine ⟨commands, out, hcommands, hsplice, ?_⟩
  have hlength := hremade.length_eq
  have hblanks : ∀ {e : LineEdit}, e.Opens d.text → e.start + e.before ≤ d.text.length := by
    rintro e ⟨as, bs, c, rest, htext, hstart, hbefore, -⟩
    rw [htext, hstart, hbefore]
    simp only [List.length_append]
    omega
  have hcarry := @carry_le _ _ (Nat.min_le_right offset d.text.length) _ 0 hsorted
    (fun e he => hblanks (hall e he).1) (by omega)
  rw [Int.add_zero, ← hlength] at hcarry
  exact Int.ofNat_le.mp hcarry

/-- **Edits land in the text.**  Whatever the text, an offset in it, the other end of the selection
if there is one, the direction, the delimiters and the indent width: when a structural edit gives a
result, its changes are insertions of text and deletions of a length, each lies in the text that the
changes before it left, and the caret is in the text after them.  The same holds of indentation,
which always gives a result. -/
theorem edits_land_in_text {cs : List Char} {offset : Nat} {o : Edit.Options}
    (hoffset : offset ≤ cs.length)
    (hother : ∀ other, o.otherEnd = some other → other ≤ cs.length) :
    (∀ (e : StructuralEdit) (r : Edit), e.edit? (ofText cs) offset o = some r → r.LandsIn cs) ∧
      ((ofText cs).indent offset o).LandsIn cs := by
  constructor
  · intro e r hr
    exact (StructuralEdit.edit?_fits (d := ofText cs) hoffset hother hr).landsIn
  · exact (ofText cs).indent_landsIn offset o

/-- In a list that the text ends in, between a prefix without a form and a stray closer. -/
theorem edits_land_in_text_unclosed :
    let cs := ['(', 'a', ' ', '\'', ' ', ']', '\n', ' ', 'b']
    let o : Edit.Options := { backward := true, delimiters := some .curly, indentWidth := 7 }
    5 ≤ cs.length ∧ (∀ other, o.otherEnd = some other → other ≤ cs.length) ∧
      StructuralEdit.splice.edit? (ofText cs) 5 o = some ⟨[.deletion 0 1], 4⟩ ∧
      (StructuralEdit.spliceKill true).edit? (ofText cs) 5 o = some ⟨[.deletion 0 8], 0⟩ ∧
      (∀ (e : StructuralEdit) (r : Edit), e.edit? (ofText cs) 5 o = some r → r.LandsIn cs) ∧
      ((ofText cs).indent 5 o).LandsIn cs := by
  intro cs o
  have hoffset : 5 ≤ cs.length := by decide
  have hother : ∀ other, o.otherEnd = some other → other ≤ cs.length := by
    intro other hsome
    cases hsome
  exact ⟨hoffset, hother, by decide +kernel, by decide +kernel, edits_land_in_text hoffset hother⟩

end Document

end SexpEdit
