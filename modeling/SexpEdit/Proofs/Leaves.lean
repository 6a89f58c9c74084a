/-
Tokens in their places.

A token in place has the offset where it starts and the nodes around it.  The innermost of these is
a placed form that has the token in its row, and the offset is that of the token in the text.

* `Leaf.exists_parent_of_mem` — a token in place stands in the row of a placed form;
* `Document.exists_split_of_mem` — it starts where the tokens before it end;
* `Document.leafAt?_of_split` — the token over an offset is found there.
-/
import SexpEdit.Proofs.LineStart
import SexpEdit.Proofs.Placement

namespace SexpEdit

open SexpEdit.Tree
open Token (scan)

namespace Token

/-- Some token covers each character. -/
theorem exists_token_at {ts : List Token} {n : Nat} (h : n < widthOf ts) :
    ∃ us t vs, ts = us ++ t :: vs ∧ widthOf us ≤ n ∧ n < widthOf us + t.text.length := by
  induction ts generalizing n with
  | nil => cases h
  | cons t ts ih =>
    rw [widthOf_cons] at h
    by_cases hn : n < t.text.length
    · exact ⟨[], t, ts, rfl, Nat.zero_le n, by simpa using hn⟩
    · obtain ⟨us, u, vs, rfl, hle, hlt⟩ := ih (n := n - t.text.length) (by omega)
      refine ⟨t :: us, u, vs, rfl, ?_, ?_⟩
      · rw [widthOf_cons]
        omega
      · rw [widthOf_cons]
        omega

/-- One token of a row covers an offset. -/
theorem split_unique {ts us ts' us' : List Token} {t t' : Token} {n : Nat}
    (h : ts ++ t :: us = ts' ++ t' :: us') (hle : widthOf ts ≤ n)
    (hlt : n < widthOf ts + t.text.length) (hle' : widthOf ts' ≤ n)
    (hlt' : n < widthOf ts' + t'.text.length) : ts = ts' ∧ t = t' := by
  rcases List.append_eq_append_iff.mp h with ⟨m, rfl, hm⟩ | ⟨m, rfl, hm⟩
  · cases m with
    | nil => exact ⟨(List.append_nil ts).symm, (List.cons.inj hm).1⟩
    | cons u m =>
      obtain ⟨rfl, -⟩ := List.cons.inj hm
      simp only [widthOf_append, widthOf_cons] at hle'
      omega
  · cases m with
    | nil => exact ⟨List.append_nil ts', (List.cons.inj hm).1.symm⟩
    | cons u m =>
      obtain ⟨rfl, -⟩ := List.cons.inj hm
      simp only [widthOf_append, widthOf_cons] at hle
      omega

end Token

open Token (widthOf)

theorem Tree.width_eq_widthOf (t : Tree) : t.width = widthOf t.leaves :=
  width_eq t

theorem Tree.rowWidth_eq_widthOf (ts : List Tree) : rowWidth ts = widthOf (rowLeaves ts) :=
  rowWidth_eq ts

namespace Leaf

open Form (Placed)

mutual

theorem exists_parent_of_mem_node {root : Tree} : ∀ {t : Tree} {p : Form}, Placed root p →
    ∀ {pre post : List Tree}, p.children = pre ++ t :: post → ∀ {l : Leaf},
      l ∈ within (p.toSite :: p.around) (p.start + rowWidth pre) t →
      ∃ q x y, Placed root q ∧ l.around = q.toSite :: q.around ∧
        q.children = x ++ .leaf l.token :: y ∧ l.start = q.start + rowWidth x
  | .leaf t, p, hp, pre, post, hsplit, l, h => by
    obtain rfl := List.mem_singleton.mp h
    exact ⟨p, pre, post, hp, rfl, hsplit, rfl⟩
  | .node k ts, p, hp, pre, post, hsplit, l, h => by
    have hchild : (Form.ofNode k (p.start + rowWidth pre) ts (p.toSite :: p.around)).children =
        [] ++ ts := rfl
    exact exists_parent_of_mem_row (Placed.child hp hsplit) hchild h

theorem exists_parent_of_mem_row {root : Tree} : ∀ {ts : List Tree} {p : Form}, Placed root p →
    ∀ {pre : List Tree}, p.children = pre ++ ts → ∀ {l : Leaf},
      l ∈ rowWithin (p.toSite :: p.around) (p.start + rowWidth pre) ts →
      ∃ q x y, Placed root q ∧ l.around = q.toSite :: q.around ∧
        q.children = x ++ .leaf l.token :: y ∧ l.start = q.start + rowWidth x
  | [], _, _, _, _, _, h => absurd h List.not_mem_nil
  | t :: ts, p, hp, pre, hsplit, l, h => by
    rw [rowWithin] at h
    rcases List.mem_append.mp h with h | h
    · exact exists_parent_of_mem_node hp hsplit h
    · have hsplit' : p.children = (pre ++ [t]) ++ ts := by simp [hsplit]
      refine exists_parent_of_mem_row hp hsplit' ?_
      rw [rowWidth_append, rowWidth, rowWidth, Nat.add_zero, ← Nat.add_assoc]
      exact h

end

/-- A token in place stands in the row of a `Placed` form. -/
theorem exists_parent_of_mem {k : Kind} {ts : List Tree} {l : Leaf}
    (h : l ∈ within [] 0 (.node k ts)) :
    ∃ p x y, Placed (.node k ts) p ∧ l.around = p.toSite :: p.around ∧
      p.children = x ++ .leaf l.token :: y ∧ l.start = p.start + rowWidth x := by
  have hsplit : (Form.ofNode k 0 ts []).children = [] ++ ts := rfl
  exact exists_parent_of_mem_row (Placed.root rfl) hsplit h

mutual

/-- Every token of a tree is among those in place, the leaves `within` it. -/
theorem exists_mem_within : ∀ (t : Tree) (around : List Site) (start : Nat) {ts us : List Token}
    {u : Token}, t.leaves = ts ++ u :: us →
      ∃ l ∈ within around start t, l.token = u ∧ l.start = start + widthOf ts
  | .leaf t, around, start, ts, us, u, h => by
    rw [leaves] at h
    obtain ⟨rfl, hu⟩ : ts = [] ∧ u = t := by
      cases ts with
      | nil => exact ⟨rfl, (List.cons.inj h).1.symm⟩
      | cons v ts => simp at h
    exact ⟨⟨t, start, around⟩, List.mem_singleton_self _, hu.symm, rfl⟩
  | .node k ts, around, start, _, _, _, h =>
    exists_mem_rowWithin ts (Site.ofNode k start ts :: around) start h

theorem exists_mem_rowWithin : ∀ (ts : List Tree) (around : List Site) (start : Nat)
    {vs us : List Token} {u : Token}, rowLeaves ts = vs ++ u :: us →
      ∃ l ∈ rowWithin around start ts, l.token = u ∧ l.start = start + widthOf vs
  | [], _, _, vs, us, u, h => by simp [rowLeaves] at h
  | t :: ts, around, start, vs, us, u, h => by
    rw [rowLeaves] at h
    -- the token is in the first tree, or it comes `m` tokens after the end of that tree
    have hcases : (∃ m, t.leaves = vs ++ u :: m) ∨
        ∃ m, vs = t.leaves ++ m ∧ rowLeaves ts = m ++ u :: us := by
      rcases List.append_eq_append_iff.mp h with ⟨m, hvs, hm⟩ | ⟨m, hm, hm'⟩
      · exact .inr ⟨m, hvs, hm⟩
      · cases m with
        | nil => exact .inr ⟨[], by rw [hm, List.append_nil, List.append_nil], hm'.symm⟩
        | cons v m =>
          obtain ⟨rfl, -⟩ := List.cons.inj hm'
          exact .inl ⟨m, hm⟩
    rcases hcases with ⟨m, hm⟩ | ⟨m, rfl, hm⟩
    · obtain ⟨l, hl, htoken, hstart⟩ := exists_mem_within t around start hm
      exact ⟨l, List.mem_append_left _ hl, htoken, hstart⟩
    · obtain ⟨l, hl, htoken, hstart⟩ := exists_mem_rowWithin ts around (start + t.width) hm
      refine ⟨l, List.mem_append_right _ hl, htoken, ?_⟩
      rw [hstart, Token.widthOf_append, width_eq_widthOf, Nat.add_assoc]

end

end Leaf

namespace Document

open Form (Placed)

theorem leaves_tree (d : Document) : d.tree.leaves = scan d.text := by
  rw [d.tree_eq, Tree.parse, leaves_read]

/-- The tree of a document is an `IsRow` of trees under the root. -/
theorem exists_row (d : Document) : ∃ ts, d.tree = .node .root ts ∧ Grammar.IsRow none [] ts := by
  rw [d.tree_eq]
  exact read_isDocument _

/-- A token of a document stands in the row of a `Placed` form, its `parent?`. -/
theorem exists_parent_of_mem {d : Document} {l : Leaf} (h : l ∈ d.leaves) :
    ∃ p x y, Placed d.tree p ∧ l.parent? = some p ∧
      p.children = x ++ .leaf l.token :: y ∧ l.start = p.start + rowWidth x := by
  obtain ⟨ts, htree, -⟩ := d.exists_row
  rw [d.leaves_eq, htree] at h
  obtain ⟨p, x, y, hp, haround, hsplit, hstart⟩ := Leaf.exists_parent_of_mem h
  refine ⟨p, x, y, by rw [htree]; exact hp, ?_, hsplit, hstart⟩
  rw [Leaf.parent?, haround]

/-- A token of a document starts where the tokens before it end. -/
theorem exists_split_of_mem {d : Document} {l : Leaf} (h : l ∈ d.leaves) :
    ∃ ts us, scan d.text = ts ++ l.token :: us ∧ l.start = widthOf ts := by
  obtain ⟨p, x, y, hp, -, hsplit, hstart⟩ := exists_parent_of_mem h
  obtain ⟨L, R, hleaves, hpstart⟩ := hp.exists_context
  refine ⟨L ++ rowLeaves x, rowLeaves y ++ R, ?_, ?_⟩
  · rw [← d.leaves_tree, hleaves, hsplit, rowLeaves_append, rowLeaves, Tree.leaves]
    simp only [List.append_assoc, List.cons_append, List.nil_append]
  · rw [hstart, hpstart, Token.widthOf_append, rowWidth_eq_widthOf]
    rfl

/-- The token over an offset is found there by `leafAt?`. -/
theorem leafAt?_of_split {d : Document} {ts us : List Token} {t : Token} {n : Nat}
    (h : scan d.text = ts ++ t :: us) (hle : widthOf ts ≤ n)
    (hlt : n < widthOf ts + t.text.length) :
    ∃ l ∈ d.leaves, d.leafAt? n = some l ∧ l.token = t ∧ l.start = widthOf ts := by
  rw [← d.leaves_tree] at h
  obtain ⟨l, hl, htoken, hstart⟩ := Leaf.exists_mem_within d.tree [] 0 h
  rw [← d.leaves_eq] at hl
  rw [Nat.zero_add] at hstart
  have hsome : (d.leafAt? n).isSome := by
    rw [leafAt?, List.find?_isSome]
    refine ⟨l, hl, ?_⟩
    rw [Leaf.stop, htoken, hstart]
    simp [hle, hlt]
  obtain ⟨m, hm⟩ := Option.isSome_iff_exists.mp hsome
  have hmem := List.mem_of_find?_eq_some hm
  have hcover := List.find?_some hm
  rw [Bool.and_eq_true, decide_eq_true_eq, decide_eq_true_eq, Leaf.stop] at hcover
  -- no other token covers the offset
  obtain ⟨ts', us', hsplit', hstart'⟩ := exists_split_of_mem hmem
  rw [← d.leaves_tree, h] at hsplit'
  rw [hstart'] at hcover
  obtain ⟨rfl, rfl⟩ := Token.split_unique hsplit' hle hlt hcover.1 hcover.2
  exact ⟨m, hmem, hm, rfl, hstart'⟩

end Document

end SexpEdit
