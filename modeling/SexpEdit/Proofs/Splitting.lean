/-
What splitting a collection loses.

The two collections that one is split into are written with one blank between them, and what was
there before is taken away: all that is between the form before the cut and the form after it, or
between one of them and a delimiter.  No form has a character there.  Most of the time these are
blanks, but a row may hold two more things that are no forms, and they go too: comments, and closers
that close nothing.

* `Tree.LooseAt` — an offset in a row is at a token that belongs to no form;
* `Grammar.IsRow.looseAt` — so is every offset that no form of the row covers;
* `Document.split_loses_no_form` — what a split takes away;
* `Document.split_loses_comment` — that may be more than blanks.
-/
import SexpEdit.Proofs.Adoption
import SexpEdit.Proofs.Fitting

namespace SexpEdit

open SexpEdit.Tree
open Token (scan widthOf)

theorem Kind.isTrivia_iff {k : Kind} :
    k.isTrivia ↔ k = .whitespace ∨ k = .newline ∨ k = .comment := by
  cases k <;> decide

/-! ### Tokens of a row that belong to no form -/

/-- In a row that starts at `start`, the offset `n` is at trivia or at a closer that closes
nothing. -/
def Tree.LooseAt (around : List Site) (start : Nat) (ts : List Tree) (n : Nat) : Prop :=
  ∃ x t y, rowLeaves ts = x ++ t :: y ∧ start + widthOf x ≤ n ∧
    n < start + widthOf x + t.text.length ∧
    (t.kind.isTrivia ∨ t.kind.isCloser ∧ ∃ p ∈ Form.inRow around start ts, p.kind = .error ∧
      p.start = start + widthOf x ∧ p.stop = p.start + t.text.length)

namespace Tree

variable {around : List Site} {start n : Nat} {t : Tree} {ts : List Tree}

theorem inRow_cons (around : List Site) (start : Nat) (t : Tree) (ts : List Tree) :
    Form.inRow around start (t :: ts) =
      Form.inRow around start [t] ++ Form.inRow around (start + t.width) ts := by
  have happend := Form.inRow_append around [t] ts start
  rw [rowWidth, rowWidth, Nat.add_zero] at happend
  exact happend

theorem LooseAt.cons (h : LooseAt around (start + t.width) ts n) :
    LooseAt around start (t :: ts) n := by
  obtain ⟨x, u, y, hleaves, hle, hlt, hloose⟩ := h
  have hwidth : start + widthOf (t.leaves ++ x) = start + t.width + widthOf x := by
    rw [Token.widthOf_append, width_eq_widthOf, Nat.add_assoc]
  refine ⟨t.leaves ++ x, u, y, ?_, ?_, ?_, ?_⟩
  · rw [rowLeaves, hleaves, List.append_assoc]
  · rwa [hwidth]
  · rwa [hwidth]
  · rw [hwidth]
    refine hloose.imp_right fun ⟨hu, p, hp, herror⟩ => ⟨hu, p, ?_, herror⟩
    rw [inRow_cons]
    exact List.mem_append_right _ hp

end Tree

namespace Grammar

theorem IsForm.kind_isForm {rest : List Token} {k : Kind} {us : List Tree}
    (h : IsForm rest (.node k us)) : k.isForm := by
  cases h with
  | atom => rfl
  | closed ho => exact Kind.isForm_of_isCollection (Kind.isCollection_of_collection? ho)
  | unclosed ho => exact Kind.isForm_of_isCollection (Kind.isCollection_of_collection? ho)
  | prefixed => rfl
  | dangling => rfl

/-- **An offset of a row that no form covers is at trivia or at a stray closer.** -/
theorem IsRow.looseAt {inner : Option Kind} {rest : List Token} {n : Nat} {ts : List Tree}
    (h : IsRow inner rest ts) (around : List Site) : ∀ {start : Nat}, start ≤ n →
      n < start + rowWidth ts →
      (∀ g ∈ Form.inRow around start ts, g.kind.isForm → g.stop ≤ n ∨ n < g.start) →
      LooseAt around start ts n := by
  induction ts with
  | nil =>
    intro start hle hlt _
    rw [rowWidth] at hlt
    omega
  | cons t ts ih =>
    intro start hle hlt hout
    rw [rowWidth] at hlt
    by_cases hin : start + t.width ≤ n
    · -- the rest of the row has the offset
      refine (ih h.tail hin (by omega) fun g hg => hout g ?_).cons
      rw [inRow_cons]
      exact List.mem_append_right _ hg
    · cases h with
      | @trivia _ _ u _ hu =>
        rw [width] at hin
        exact ⟨[], u, rowLeaves ts, rfl, hle, Nat.lt_of_not_le hin, .inl hu⟩
      | @error _ _ u _ hu =>
        rw [width, rowWidth, rowWidth, width, Nat.add_zero] at hin
        exact ⟨[], u, rowLeaves ts, rfl, hle, Nat.lt_of_not_le hin,
          .inr ⟨hu, _, List.mem_cons_self, rfl, rfl, rfl⟩⟩
      | form ht =>
        obtain ⟨k, us, rfl⟩ := ht.exists_node
        -- the form would cover the offset
        rcases hout (Form.ofNode k start us around) List.mem_cons_self ht.kind_isForm with
          hstop | hstart
        · exact absurd hstop hin
        · exact absurd hle (Nat.not_le_of_lt hstart)

end Grammar

namespace Document

open Form (Placed)

variable {d : Document} {offset n : Nat} {r : Edit}

/-- What `leafAt?` finds in the interior of a closed collection, but in no form of it. -/
theorem leafAt?_of_outside {list : Form} (h : Placed d.tree list) (hk : list.isCollection)
    (hclosed : list.isClosed) (hle : list.innerStart ≤ n) (hlt : n < list.innerStop)
    (hout : ∀ g ∈ list.forms, g.stop ≤ n ∨ n < g.start) :
    ∃ l, d.leafAt? n = some l ∧
      (l.kind.isTrivia ∨ l.kind.isCloser ∧ ∃ p ∈ list.nodes, p.kind = .error ∧
        p.start = l.start ∧ p.stop = l.stop) := by
  obtain ⟨o, es, c, rest, hbrackets, hrow⟩ := h.exists_brackets hk hclosed
  rw [hbrackets.innerStart_eq] at hle
  rw [hbrackets.innerStop_eq] at hlt
  obtain ⟨x, t, y, hleaves, hfrom, hto, hloose⟩ :=
    hrow.looseAt (list.toSite :: list.around) hle hlt fun g hg hform =>
      hout g (List.mem_filter.mpr ⟨by rwa [hbrackets.nodes_eq], hform⟩)
  obtain ⟨L, R, hcontext, hstart⟩ := h.exists_context
  have hscan : scan d.text = (L ++ o :: x) ++ t :: (y ++ c :: R) := by
    rw [← d.leaves_tree, hcontext, hbrackets.children]
    simp [rowLeaves, Tree.leaves, hleaves]
  have hwidth : widthOf (L ++ o :: x) = list.start + 1 + widthOf x := by
    have hstart : list.start = widthOf L := hstart
    rw [Token.widthOf_append, Token.widthOf_cons, hbrackets.opener_length, hstart, Nat.add_assoc]
  obtain ⟨l, -, hl, rfl, hlstart⟩ := leafAt?_of_split hscan (hwidth.trans_le hfrom) (by omega)
  refine ⟨l, hl, hloose.imp_right fun ⟨hcloser, p, hp, herror, hpstart, hpstop⟩ =>
    ⟨hcloser, p, by rwa [hbrackets.nodes_eq], herror, by omega, ?_⟩⟩
  rw [Leaf.stop]
  omega

/-- **What a split takes away.**  A split puts a closer, a blank and an opener of the innermost
collection in the place of all that is between the form before the cut, or the opener, and the form
after it, or the closer.  No form of the collection has a character there.  What is there are
blanks, line ends, comments and closers that close nothing. -/
theorem split_loses_no_form (h : d.split? offset = some r) :
    ∃ list left right, d.innermost? offset = some list ∧
      (left = list.innerStart ∨ ∃ f ∈ list.forms, left = f.stop) ∧
      (right = list.innerStop ∨ ∃ f ∈ list.forms, right = f.start) ∧
      r.changes = (if left < right then [.deletion left (right - left)] else []) ++
        [.insertion left (list.closing ++ [' '] ++ list.opening)] ∧
      (∀ g ∈ list.forms, g.stop ≤ left ∨ right ≤ g.start) ∧
      ∀ n, left ≤ n → n < right → ∃ l, d.leafAt? n = some l ∧
        (l.kind = .whitespace ∨ l.kind = .newline ∨ l.kind = .comment ∨
          l.kind.isCloser ∧ ∃ p ∈ list.nodes, p.kind = .error ∧ p.start = l.start ∧
            p.stop = l.stop) := by
  obtain ⟨list, left, right, hlist, hclosed, hleft, hright, hgap, rfl⟩ := split?_eq_some h
  refine ⟨list, left, right, hlist, hleft, hright, rfl, hgap, fun n hle hlt => ?_⟩
  obtain ⟨hplaced, hframed, -⟩ := framed_of_innermost? hlist
  have hfrom : list.innerStart ≤ left := by
    rcases hleft with rfl | ⟨f, hf, rfl⟩
    · exact Nat.le_refl _
    · have hin := hframed.bounds_of_mem hf
      rw [hframed.innerStart_eq]
      omega
  have hto : right ≤ list.innerStop := by
    rcases hright with rfl | ⟨f, hf, rfl⟩
    · exact Nat.le_refl _
    · have hin := hframed.bounds_of_mem hf
      omega
  obtain ⟨l, hl, hloose⟩ := leafAt?_of_outside hplaced (innermost?_eq_some hlist).2.1 hclosed
    (hfrom.trans hle) (Nat.lt_of_lt_of_le hlt hto) fun g hg =>
      (hgap g hg).imp (fun hstop => hstop.trans hle) fun hstart => Nat.lt_of_lt_of_le hlt hstart
  refine ⟨l, hl, ?_⟩
  rwa [Kind.isTrivia_iff, or_assoc, or_assoc] at hloose

/-- At a comment that has a stray closer behind it, all between the two forms goes. -/
theorem split_loses_no_form_between :
    let d := ofText "(a ;c\n ] b)".toList
    d.split? 2 = some ⟨[.deletion 2 7, .insertion 2 ") (".toList], 3⟩ ∧
      ∃ list left right, d.innermost? 2 = some list ∧ left < right ∧
        (∀ g ∈ list.forms, g.stop ≤ left ∨ right ≤ g.start) ∧
        ∀ n, left ≤ n → n < right → ∃ l, d.leafAt? n = some l ∧
          (l.kind = .whitespace ∨ l.kind = .newline ∨ l.kind = .comment ∨
            l.kind.isCloser ∧ ∃ p ∈ list.nodes, p.kind = .error ∧ p.start = l.start ∧
              p.stop = l.stop) := by
  intro d
  have hsplit : d.split? 2 = some ⟨[.deletion 2 7, .insertion 2 ") (".toList], 3⟩ := by
    decide +kernel
  obtain ⟨list, left, right, hlist, -, -, hchanges, hgap, hlost⟩ := split_loses_no_form hsplit
  refine ⟨hsplit, list, left, right, hlist, ?_, hgap, hlost⟩
  by_contra hnot
  rw [if_neg hnot] at hchanges
  cases hchanges

/-- Splitting at the end of `a` takes the comment away, which is no blank. -/
theorem split_loses_comment :
    let d := ofText "(a ;c\n b)".toList
    d.split? 2 = some ⟨[.deletion 2 5, .insertion 2 ") (".toList], 3⟩ ∧
      ∃ n l, (2 ≤ n ∧ n < 2 + 5) ∧ d.leafAt? n = some l ∧
        ¬(l.kind = .whitespace ∨ l.kind = .newline) := by
  intro d
  have hkind : (d.leafAt? 3).map Leaf.kind = some .comment := by decide +kernel
  obtain ⟨l, hl, hcomment⟩ := Option.map_eq_some_iff.mp hkind
  refine ⟨by decide +kernel, 3, l, by decide, hl, ?_⟩
  rw [hcomment]
  decide

end Document

end SexpEdit
