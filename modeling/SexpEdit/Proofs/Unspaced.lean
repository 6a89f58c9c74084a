/-
Trees without whitespace.

Whitespace tokens stand in a tree as leaves of their own.  Leaving them out of a document gives the
document over the other tokens, since no rule of the grammar asks for whitespace: a prefix without a
form has a closer or a comment after it, or nothing, and so it has once the whitespace is gone.

* `leaves_unspaced` — the leaves that are left are the significant tokens;
* `unspaced_read` — a document without its whitespace is read from the significant tokens.
-/
import SexpEdit.Proofs.Balance
import SexpEdit.Proofs.LineStart

namespace SexpEdit

open Token (significant)

namespace Tree

/-- A leaf of whitespace. -/
def isSpace : Tree → Bool
  | leaf t => t.kind == .whitespace
  | node _ _ => false

mutual

/-- The tree without its whitespace. -/
def unspaced : Tree → Tree
  | leaf t => leaf t
  | node k ts => node k (rowUnspaced ts)

/-- `unspaced` for trees in a row. -/
def rowUnspaced : List Tree → List Tree
  | [] => []
  | t :: ts => if t.isSpace then rowUnspaced ts else unspaced t :: rowUnspaced ts

end

theorem rowUnspaced_append (us : List Tree) : ∀ ts : List Tree,
    rowUnspaced (ts ++ us) = rowUnspaced ts ++ rowUnspaced us := by
  intro ts
  induction ts with
  | nil => rfl
  | cons t ts ih =>
    rw [List.cons_append, rowUnspaced, rowUnspaced, ih]
    by_cases ht : t.isSpace
    · rw [if_pos ht, if_pos ht]
    · rw [if_neg ht, if_neg ht, List.cons_append]

theorem rowUnspaced_leaf_cons {t : Token} (ht : t.kind ≠ .whitespace) (ts : List Tree) :
    rowUnspaced (.leaf t :: ts) = .leaf t :: rowUnspaced ts := by
  have hspace : ¬(Tree.leaf t).isSpace = true := by
    rw [isSpace, beq_iff_eq]
    exact ht
  rw [rowUnspaced, if_neg hspace, unspaced]

theorem rowUnspaced_node_cons (k : Kind) (us ts : List Tree) :
    rowUnspaced (.node k us :: ts) = .node k (rowUnspaced us) :: rowUnspaced ts := by
  rw [rowUnspaced, unspaced]
  exact if_neg Bool.false_ne_true

theorem significant_cons_of_ne {t : Token} (ht : t.kind ≠ .whitespace) (ts : List Token) :
    significant (t :: ts) = t :: significant ts :=
  List.filter_cons_of_pos (bne_iff_ne.mpr ht)

theorem rowUnspaced_map_leaf (ts : List Token) :
    rowUnspaced (ts.map .leaf) = (significant ts).map .leaf := by
  induction ts with
  | nil => rfl
  | cons t ts ih =>
    by_cases ht : t.kind = .whitespace
    · have hspace : (Tree.leaf t).isSpace = true := beq_iff_eq.mpr ht
      have hdrop : significant (t :: ts) = significant ts :=
        List.filter_cons_of_neg (by simp [ht])
      rw [List.map_cons, rowUnspaced, if_pos hspace, ih, hdrop]
    · rw [List.map_cons, rowUnspaced_leaf_cons ht, ih, significant_cons_of_ne ht, List.map_cons]

mutual

/-- The leaves that `unspaced` leaves are the `significant` tokens. -/
theorem leaves_unspaced : ∀ t : Tree, t.isSpace = false → t.unspaced.leaves = significant t.leaves
  | .leaf t, ht => by
    have hne : t.kind ≠ .whitespace := beq_eq_false_iff_ne.mp ht
    rw [unspaced, leaves, significant_cons_of_ne hne]
    rfl
  | .node _ ts, _ => rowLeaves_rowUnspaced ts

theorem rowLeaves_rowUnspaced : ∀ ts : List Tree,
    rowLeaves (rowUnspaced ts) = significant (rowLeaves ts)
  | [] => rfl
  | t :: ts => by
    rw [rowUnspaced, rowLeaves, Token.significant_append]
    by_cases ht : t.isSpace
    · -- a leaf of whitespace has no significant token
      have hnil : significant t.leaves = [] := by
        cases t with
        | leaf t =>
          rw [isSpace, beq_iff_eq] at ht
          simp [leaves, significant, ht]
        | node => cases ht
      rw [if_pos ht, hnil, List.nil_append, rowLeaves_rowUnspaced ts]
    · rw [if_neg ht, rowLeaves, leaves_unspaced t (Bool.eq_false_iff.mpr ht),
        rowLeaves_rowUnspaced ts]

end

end Tree

namespace Grammar

open SexpEdit.Tree

theorem NoOperand.significant {rest : List Token} (h : NoOperand rest) :
    NoOperand (significant rest) := by
  cases rest with
  | nil => trivial
  | cons t rest =>
    have hne : t.kind ≠ .whitespace := by
      intro hk
      rcases h with h | h
      · rw [hk] at h
        cases h
      · rw [hk] at h
        cases h
    rw [significant_cons_of_ne hne]
    exact h

theorem blanks_significant {bs : List Token}
    (hbs : ∀ b ∈ bs, b.kind = .whitespace ∨ b.kind = .newline) :
    ∀ b ∈ significant bs, b.kind = .whitespace ∨ b.kind = .newline :=
  fun b hb => hbs b (List.mem_filter.mp hb).1

mutual

/-- An `IsForm` without its whitespace is one. -/
theorem IsForm.unspaced {rest : List Token} {t : Tree} :
    IsForm rest t → IsForm (significant rest) t.unspaced
  | @IsForm.atom rest t ht => by
    have hne : t.kind ≠ .whitespace := by
      intro hk
      rw [hk] at ht
      cases ht
    rw [Tree.unspaced, rowUnspaced_leaf_cons hne]
    exact .atom ht
  | @IsForm.closed rest o c k es ho hc hes => by
    have hone : o.kind ≠ .whitespace := by
      intro hk
      rw [hk] at ho
      cases ho
    have hcne : c.kind ≠ .whitespace := by
      intro hk
      rw [hk] at hc
      cases k <;> cases hc
    have hrow := hes.unspaced
    rw [significant_cons_of_ne hcne] at hrow
    rw [Tree.unspaced, rowUnspaced_leaf_cons hone, rowUnspaced_append, rowUnspaced_leaf_cons hcne]
    exact .closed ho hc hrow
  | @IsForm.unclosed o k es ho hes => by
    have hone : o.kind ≠ .whitespace := by
      intro hk
      rw [hk] at ho
      cases ho
    rw [Tree.unspaced, rowUnspaced_leaf_cons hone]
    exact .unclosed ho hes.unspaced
  | @IsForm.prefixed rest p bs t hp hbs ht => by
    have hpne : p.kind ≠ .whitespace := by
      rw [hp]
      exact Kind.noConfusion
    have hform := ht.unspaced
    obtain ⟨k, us, rfl⟩ := ht.exists_node
    rw [Tree.unspaced] at hform
    rw [Tree.unspaced, rowUnspaced_leaf_cons hpne, rowUnspaced_append, rowUnspaced_map_leaf,
      rowUnspaced_node_cons]
    exact .prefixed hp (blanks_significant hbs) hform
  | @IsForm.dangling rest p bs hp hbs hrest => by
    have hpne : p.kind ≠ .whitespace := by
      rw [hp]
      exact Kind.noConfusion
    rw [Tree.unspaced, rowUnspaced_leaf_cons hpne, rowUnspaced_map_leaf]
    exact .dangling hp (blanks_significant hbs) hrest.significant

/-- An `IsRow` without its whitespace is one. -/
theorem IsRow.unspaced {inner : Option Kind} {rest : List Token} {ts : List Tree} :
    IsRow inner rest ts → IsRow inner (significant rest) (rowUnspaced ts)
  | .nil => .nil
  | @IsRow.trivia inner rest t ts ht hts => by
    rw [rowUnspaced]
    by_cases hspace : (Tree.leaf t).isSpace
    · rw [if_pos hspace]
      exact hts.unspaced
    · rw [if_neg hspace]
      exact .trivia ht hts.unspaced
  | @IsRow.error inner rest t ts ht hne hts => by
    have htne : t.kind ≠ .whitespace := by
      intro hk
      rw [hk] at ht
      cases ht
    rw [rowUnspaced_node_cons, rowUnspaced_leaf_cons htne]
    exact .error ht hne hts.unspaced
  | @IsRow.form inner rest t ts ht hts => by
    have hform := ht.unspaced
    obtain ⟨k, us, rfl⟩ := ht.exists_node
    rw [Token.significant_append, ← rowLeaves_rowUnspaced, Tree.unspaced] at hform
    rw [rowUnspaced_node_cons]
    exact .form hform hts.unspaced

end

end Grammar

/-- A document without its whitespace is read from the `significant` tokens. -/
theorem Tree.unspaced_read (ts : List Token) : (read ts).unspaced = read (significant ts) := by
  have hdoc : Grammar.IsDocument (read ts).unspaced := by
    obtain ⟨us, hread, hus⟩ := read_isDocument ts
    rw [hread]
    exact ⟨rowUnspaced us, rfl, hus.unspaced⟩
  have hspace : (read ts).isSpace = false := by
    obtain ⟨us, hread, -⟩ := read_isDocument ts
    rw [hread]
    rfl
  have hleaves : (read ts).unspaced.leaves = significant ts := by
    rw [leaves_unspaced _ hspace, leaves_read]
  rw [← hleaves, Grammar.read_leaves hdoc]

end SexpEdit
