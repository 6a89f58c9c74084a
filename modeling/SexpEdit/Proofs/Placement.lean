/-
Forms in their places.

A form is placed in a tree when its offsets and the nodes around it are those of a node of the tree.
What is before a placed form and what is after it are then tokens of the text, and so are the rows
of forms inside a collection.

* `placed_of_mem_within` — every node of a document is placed;
* `Placed.exists_context` — a placed form covers the characters from its start on;
* `exists_of_mem_inRow` — the nodes of a row are where the trees before them end;
* `exists_between` — of two nodes of a row the one that starts first stands before the other;
* `Placed.outermost` — a form and the prefixes on it end together.
-/
import SexpEdit.Edit.Reshape
import SexpEdit.Proofs.Balance

namespace SexpEdit

namespace Tree

mutual

theorem width_eq : ∀ t : Tree, t.width = (t.leaves.flatMap Token.text).length
  | .leaf t => by simp [width, leaves]
  | .node _ ts => rowWidth_eq ts

theorem rowWidth_eq : ∀ ts : List Tree, rowWidth ts = ((rowLeaves ts).flatMap Token.text).length
  | [] => rfl
  | t :: ts => by
    rw [rowWidth, rowLeaves, List.flatMap_append, List.length_append, width_eq t, rowWidth_eq ts]

end

@[simp] theorem rowWidth_append (ts us : List Tree) :
    rowWidth (ts ++ us) = rowWidth ts + rowWidth us := by
  simp only [rowWidth_eq, rowLeaves_append, List.flatMap_append, List.length_append]

/-- A node inside a `Tidy` node is `Tidy`. -/
theorem Tidy.child {k j : Kind} {ts us : List Tree} (h : Tidy (.node k ts))
    (hmem : .node j us ∈ ts) : Tidy (.node j us) := by
  cases h with
  | atom => simp at hmem
  | closed _ _ hes =>
    simp only [List.mem_cons, List.mem_append, List.not_mem_nil, or_false, reduceCtorEq,
      false_or] at hmem
    exact hes _ hmem
  | prefixed _ _ ht =>
    simp only [List.mem_cons, List.mem_append, List.mem_map, List.not_mem_nil, or_false,
      reduceCtorEq, and_false, exists_false, false_or] at hmem
    rw [hmem]
    exact ht
  | dangling => simp at hmem

/-- A `Tidy` node with a node inside is a collection or a prefixed form. -/
theorem Tidy.isCollection_of_mem {k j : Kind} {ts us : List Tree} (h : Tidy (.node k ts))
    (hmem : .node j us ∈ ts) (hk : k ≠ .prefixed) : k.isCollection := by
  cases h with
  | atom => simp at hmem
  | closed ho => exact Kind.isCollection_of_collection? ho
  | prefixed | dangling => exact absurd rfl hk

/-- A node inside a prefixed form is its operand: it comes last, after the prefix and blanks. -/
theorem Tidy.operand {k : Kind} {ts us pre post : List Tree} (h : Tidy (.node .prefixed ts))
    (hsplit : ts = pre ++ .node k us :: post) :
    post = [] ∧ ∀ t ∈ rowLeaves pre,
      t.kind = .readerPrefix ∨ t.kind = .whitespace ∨ t.kind = .newline := by
  generalize hj : Kind.prefixed = j at h
  cases h with
  | atom => cases hj
  | closed ho => exact absurd hj.symm (Kind.ne_prefixed_of_collection? ho)
  | @prefixed p bs j vs hp hbs =>
    -- only the last child is a node
    have hnode : .node k us ∉ Tree.leaf p :: bs.map .leaf := by simp
    have hlast : (.leaf p :: bs.map .leaf) ++ [.node j vs] = pre ++ .node k us :: post := hsplit
    have hpre : pre = .leaf p :: bs.map .leaf ∧ post = [] := by
      rcases List.append_eq_append_iff.mp hlast with ⟨m, rfl, hm⟩ | ⟨m, hm, hm'⟩
      · cases m with
        | nil => exact ⟨List.append_nil _, (List.cons.inj hm).2.symm⟩
        | cons u m => simp at hm
      · cases m with
        | nil =>
          rw [List.append_nil] at hm
          exact ⟨hm.symm, (List.cons.inj hm').2⟩
        | cons u m =>
          rw [List.cons_append] at hm'
          obtain ⟨rfl, -⟩ := List.cons.inj hm'
          exact absurd (by simp [hm]) hnode
    obtain ⟨rfl, rfl⟩ := hpre
    refine ⟨rfl, fun t ht => ?_⟩
    simp only [rowLeaves, leaves, rowLeaves_map_leaf, List.singleton_append, List.mem_cons] at ht
    rcases ht with rfl | ht
    · exact .inl hp
    · exact .inr (hbs t ht)
  | dangling =>
    have hmem : .node k us ∈ pre ++ .node k us :: post := by simp
    rw [← hsplit] at hmem
    simp at hmem

end Tree

namespace Form

open SexpEdit.Tree

theorem stop_eq_start_add (f : Form) : f.stop = f.start + f.text.length := by
  have hstop : f.stop = f.start + rowWidth f.children := f.stop_eq
  rw [hstop, rowWidth_eq]
  rfl

theorem length_text (f : Form) : f.text.length = f.length := by
  rw [length, f.stop_eq_start_add, Nat.add_sub_cancel_left]

theorem kind_of_isAtomOf {f : Form} {p : Kind → Bool} (h : f.isAtomOf p) : f.kind = .atom := by
  rw [isAtomOf, Bool.and_eq_true, beq_iff_eq] at h
  exact h.1

/-! ### Rows -/

theorem inRow_append (around : List Site) : ∀ (ts us : List Tree) (start : Nat),
    inRow around start (ts ++ us) = inRow around start ts ++ inRow around (start + rowWidth ts) us
  | [], us, start => rfl
  | .leaf t :: ts, us, start => by
    rw [List.cons_append, inRow, inRow, inRow_append around ts us, rowWidth, width, Nat.add_assoc]
  | .node k cs :: ts, us, start => by
    have hstop : (ofNode k start cs around).stop = start + rowWidth cs := rfl
    rw [List.cons_append, inRow, inRow, inRow_append around ts us, List.cons_append, hstop,
      rowWidth, width, Nat.add_assoc]

/-- A node of `inRow` starts where the trees before it end. -/
theorem exists_of_mem_inRow {around : List Site} {f : Form} : ∀ {ts : List Tree} {start : Nat},
    f ∈ inRow around start ts →
      ∃ x y, ts = x ++ .node f.kind f.children :: y ∧
        f = ofNode f.kind (start + rowWidth x) f.children around
  | .leaf t :: ts, start, h => by
    obtain ⟨x, y, rfl, hf⟩ := @exists_of_mem_inRow around f ts _ h
    refine ⟨.leaf t :: x, y, rfl, ?_⟩
    rw [hf, rowWidth, width, Nat.add_assoc]
    rfl
  | .node k cs :: ts, start, h => by
    rcases List.mem_cons.mp h with rfl | h
    · exact ⟨[], ts, rfl, rfl⟩
    · obtain ⟨x, y, rfl, hf⟩ := @exists_of_mem_inRow around f ts _ h
      refine ⟨.node k cs :: x, y, rfl, ?_⟩
      have hstop : (ofNode k start cs around).stop = start + rowWidth cs := rfl
      rw [hf, rowWidth, width, hstop, Nat.add_assoc]
      rfl

theorem mem_inRow {around : List Site} {start : Nat} {k : Kind} {cs x y : List Tree} :
    ofNode k (start + rowWidth x) cs around ∈ inRow around start (x ++ .node k cs :: y) := by
  rw [inRow_append, inRow]
  exact List.mem_append_right _ List.mem_cons_self

/-- Of two nodes of a row the one that starts first stands before the other. -/
theorem exists_between {around : List Site} {start : Nat} {ts : List Tree} {f g : Form}
    (hf : f ∈ inRow around start ts) (hg : g ∈ inRow around start ts) (hlt : f.start < g.start) :
    ∃ x m y, ts = x ++ (.node f.kind f.children :: (m ++ .node g.kind g.children :: y)) ∧
      f.start = start + rowWidth x ∧ g.start = f.stop + rowWidth m := by
  obtain ⟨x, y, hx, hfx⟩ := exists_of_mem_inRow hf
  obtain ⟨x', y', hx', hgx⟩ := exists_of_mem_inRow hg
  have hfstart : f.start = start + rowWidth x := congrArg (·.start) hfx
  have hgstart : g.start = start + rowWidth x' := congrArg (·.start) hgx
  have heq : x ++ .node f.kind f.children :: y = x' ++ .node g.kind g.children :: y' :=
    hx.symm.trans hx'
  -- the row is split twice; what stands before `g` is longer, so `f` is in it
  rcases List.append_eq_append_iff.mp heq with ⟨m, rfl, hm⟩ | ⟨m, rfl, hm⟩
  · cases m with
    | nil =>
      rw [List.append_nil] at hgstart
      omega
    | cons u m =>
      rw [List.cons_append] at hm
      obtain ⟨rfl, rfl⟩ := List.cons.inj hm
      refine ⟨x, m, y', hx, hfstart, ?_⟩
      have hstop : f.stop = f.start + rowWidth f.children := f.stop_eq
      rw [hgstart, hstop, hfstart, rowWidth_append, rowWidth, width]
      omega
  · rw [rowWidth_append] at hfstart
    omega

/-- Among trees with characters no two nodes of a row start together. -/
theorem pairwise_inRow {around : List Site} : ∀ {ts : List Tree} {start : Nat},
    (∀ t ∈ ts, 0 < t.width) → (inRow around start ts).Pairwise fun f g => f.start < g.start
  | [], _, _ => .nil
  | .leaf t :: ts, start, h => by
    rw [inRow]
    exact pairwise_inRow fun u hu => h u (by simp [hu])
  | .node k cs :: ts, start, h => by
    rw [inRow]
    refine List.Pairwise.cons ?_ (pairwise_inRow fun u hu => h u (by simp [hu]))
    intro g hg
    obtain ⟨x, -, -, hgx⟩ := exists_of_mem_inRow hg
    have hgstart : g.start = start + rowWidth cs + rowWidth x := congrArg (·.start) hgx
    have hwidth : 0 < rowWidth cs := h (.node k cs) (by simp)
    show start < g.start
    omega

/-! ### Places in a tree -/

/-- A node of the tree `root` with its own offsets and the nodes around it. -/
inductive Placed (root : Tree) : Form → Prop
  | root {k : Kind} {ts : List Tree} : root = .node k ts → Placed root (ofNode k 0 ts [])
  | child {p : Form} {k : Kind} {ts pre post : List Tree} :
      Placed root p → p.children = pre ++ .node k ts :: post →
      Placed root (ofNode k (p.start + rowWidth pre) ts (p.toSite :: p.around))

mutual

theorem placed_of_mem_within_node {root : Tree} : ∀ {t : Tree} {around : List Site} {start : Nat},
    (∀ k ts, t = .node k ts → Placed root (ofNode k start ts around)) →
    ∀ {f : Form}, f ∈ within around start t → Placed root f
  | .leaf _, _, _, _, _, h => absurd h List.not_mem_nil
  | .node k ts, around, start, hnode, f, h => by
    rw [within] at h
    rcases List.mem_cons.mp h with rfl | h
    · exact hnode k ts rfl
    · have hsplit : (ofNode k start ts around).children = [] ++ ts := rfl
      exact placed_of_mem_rowWithin (hnode k ts rfl) hsplit h

theorem placed_of_mem_rowWithin {root : Tree} : ∀ {ts : List Tree} {p : Form}, Placed root p →
    ∀ {pre : List Tree}, p.children = pre ++ ts → ∀ {f : Form},
      f ∈ rowWithin (p.toSite :: p.around) (p.start + rowWidth pre) ts → Placed root f
  | [], _, _, _, _, _, h => absurd h List.not_mem_nil
  | t :: ts, p, hp, pre, hsplit, f, h => by
    rw [rowWithin] at h
    rcases List.mem_append.mp h with h | h
    · refine placed_of_mem_within_node ?_ h
      rintro k us rfl
      exact .child hp hsplit
    · have hsplit' : p.children = (pre ++ [t]) ++ ts := by simp [hsplit]
      refine placed_of_mem_rowWithin hp hsplit' ?_
      rw [rowWidth_append, rowWidth, rowWidth, Nat.add_zero, ← Nat.add_assoc]
      exact h

end

/-- Every node `within` a tree is `Placed` in it. -/
theorem placed_of_mem_within {root : Tree} {f : Form} (h : f ∈ within [] 0 root) :
    Placed root f := by
  refine placed_of_mem_within_node ?_ h
  rintro k ts rfl
  exact .root rfl

/-- A `Placed` form covers the characters from its start on. -/
theorem Placed.exists_context {root : Tree} {f : Form} (h : Placed root f) :
    ∃ L R, root.leaves = L ++ (rowLeaves f.children ++ R) ∧
      f.start = (L.flatMap Token.text).length := by
  induction h with
  | @root k ts hroot =>
    refine ⟨[], [], ?_, rfl⟩
    rw [hroot, List.append_nil]
    rfl
  | @child p k ts pre post _ hsplit ih =>
    obtain ⟨L, R, hleaves, hstart⟩ := ih
    refine ⟨L ++ rowLeaves pre, rowLeaves post ++ R, ?_, ?_⟩
    · rw [hleaves, hsplit, rowLeaves_append, rowLeaves, leaves]
      simp only [List.append_assoc]
      rfl
    · show p.start + rowWidth pre = _
      rw [hstart, List.flatMap_append, List.length_append, rowWidth_eq]

/-- What is `Placed` in a document of `Tidy` trees is the document, or tidy. -/
theorem Placed.tidy {ts : List Tree} (htidy : ∀ t ∈ ts, Tidy t) {f : Form}
    (h : Placed (.node .root ts) f) :
    f = ofNode .root 0 ts [] ∨ f.around ≠ [] ∧ Tidy (.node f.kind f.children) := by
  induction h with
  | root hroot =>
    cases hroot
    exact .inl rfl
  | @child p k us pre post _ hsplit ih =>
    refine .inr ⟨List.cons_ne_nil _ _, ?_⟩
    have hmem : .node k us ∈ p.children := by simp [hsplit]
    rcases ih with rfl | ⟨-, hp⟩
    · exact htidy _ hmem
    · exact hp.child hmem

/-- The `parent?` of a `Placed` form is placed, and the form stands in its row. -/
theorem Placed.exists_parent {root : Tree} {f : Form} (h : Placed root f) (hne : f.around ≠ []) :
    ∃ p, f.parent? = some p ∧ Placed root p ∧ f.around = p.toSite :: p.around ∧ f ∈ p.nodes ∧
      ∃ pre post, p.children = pre ++ .node f.kind f.children :: post ∧
        f.start = p.start + rowWidth pre := by
  cases h with
  | root => exact absurd rfl hne
  | @child p k ts pre post hp hsplit =>
    refine ⟨p, rfl, hp, rfl, ?_, pre, post, hsplit, rfl⟩
    rw [nodes, hsplit]
    exact mem_inRow

/-- Climbing out of prefixes leads to a `Placed` form in a collection or in the document. The form
and the prefixes on it end together. -/
theorem Placed.outermost {ts : List Tree} (htidy : ∀ t ∈ ts, Tidy t) {f : Form}
    (h : Placed (.node .root ts) f) (hne : f.around ≠ []) :
    Placed (.node .root ts) f.outermost ∧ f.outermost.around ≠ [] ∧
      (∀ p, f.outermost.parent? = some p → p.kind ≠ .prefixed) ∧
      ∃ P, rowLeaves f.outermost.children = P ++ rowLeaves f.children ∧
        f.start = f.outermost.start + (P.flatMap Token.text).length ∧
        ∀ t ∈ P, t.kind = .readerPrefix ∨ t.kind = .whitespace ∨ t.kind = .newline := by
  induction h with
  | root => exact absurd rfl hne
  | @child p k us pre post hp hsplit ih =>
    by_cases hk : p.kind = .prefixed
    · -- the form is the operand of the prefix, and they climb to the same place
      rcases hp.tidy htidy with rfl | ⟨hpne, hpt⟩
      · cases hk
      · have hclimb : (ofNode k (p.start + rowWidth pre) us (p.toSite :: p.around)).outermost =
            p.outermost := if_pos hk
        rw [hk] at hpt
        obtain ⟨rfl, hpre⟩ := hpt.operand hsplit
        obtain ⟨hout, hone, hkind, P, hP, hstart, hall⟩ := ih hpne
        rw [hclimb]
        refine ⟨hout, hone, hkind, P ++ rowLeaves pre, ?_, ?_, ?_⟩
        · rw [hP, hsplit, rowLeaves_append, List.append_assoc]
          simp only [rowLeaves, leaves, List.append_nil]
          rfl
        · show p.start + rowWidth pre = _
          rw [hstart, rowWidth_eq, List.flatMap_append, List.length_append, Nat.add_assoc]
        · intro t ht
          rcases List.mem_append.mp ht with ht | ht
          · exact hall t ht
          · exact hpre t ht
    · have hstay : (ofNode k (p.start + rowWidth pre) us (p.toSite :: p.around)).outermost =
          ofNode k (p.start + rowWidth pre) us (p.toSite :: p.around) := if_neg hk
      rw [hstay]
      refine ⟨.child hp hsplit, hne, ?_, [], rfl, rfl, by simp⟩
      intro q hq
      obtain rfl := Option.some.inj hq
      exact hk

theorem Placed.mem_collectionsOf {root : Tree} {f : Form} (h : Placed root f) :
    ∀ g ∈ collectionsOf f.around, Placed root g ∧ g.isCollection := by
  induction h with
  | root =>
    intro g hg
    cases hg
  | @child p k us pre post hp hsplit ih =>
    intro g hg
    have hg : g ∈ collectionsOf (p.toSite :: p.around) := hg
    rw [collectionsOf] at hg
    split at hg
    · rename_i hk
      rcases List.mem_cons.mp hg with rfl | hg
      · exact ⟨hp, hk⟩
      · exact ih g hg
    · exact ih g hg

end Form

end SexpEdit
