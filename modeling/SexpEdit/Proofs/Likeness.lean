/-
Trees that are alike.

Two texts whose significant tokens are the same have trees with the same nodes: the trees are alike
but for leaves of whitespace.  A relation between the offsets of the significant tokens then is one
between the nodes, and where it keeps the order of offsets, the same nodes hold related offsets.

* `Tree.Alike.of_unspaced` — rows that are the same without whitespace are alike;
* `Tree.Alike.rowWithin` — the nodes in alike rows are alike, one by one;
* `Form.Pair.holds_iff` — alike collections hold related offsets;
* `Document.innermost?_pair` — the innermost collections at related offsets are alike.
-/
import SexpEdit.Proofs.Extent
import SexpEdit.Proofs.Respacing

namespace SexpEdit

open Text
open Token (scan spots widthOf significant)

/-! ### Rows that are alike -/

namespace Tree

/-- Two rows of trees, one from the offset `s` on and one from `s'` on, are alike but for leaves of
whitespace, and the offsets of their other leaves are related. -/
inductive Alike (R : Nat → Nat → Prop) : Nat → List Tree → Nat → List Tree → Prop
  | nil {s s' : Nat} : Alike R s [] s' []
  | spaceLeft {s s' : Nat} {a : Token} {ts ts' : List Tree} : a.kind = .whitespace →
      Alike R (s + a.text.length) ts s' ts' → Alike R s (.leaf a :: ts) s' ts'
  | spaceRight {s s' : Nat} {a : Token} {ts ts' : List Tree} : a.kind = .whitespace →
      Alike R s ts (s' + a.text.length) ts' → Alike R s ts s' (.leaf a :: ts')
  | leaf {s s' : Nat} {a : Token} {ts ts' : List Tree} : a.kind ≠ .whitespace → R s s' →
      Alike R (s + a.text.length) ts (s' + a.text.length) ts' →
      Alike R s (.leaf a :: ts) s' (.leaf a :: ts')
  | node {s s' : Nat} {k : Kind} {us us' ts ts' : List Tree} : Alike R s us s' us' →
      Alike R (s + rowWidth us) ts (s' + rowWidth us') ts' →
      Alike R s (.node k us :: ts) s' (.node k us' :: ts')

theorem rowUnspaced_space_cons {a : Token} (ha : a.kind = .whitespace) (ts : List Tree) :
    rowUnspaced (.leaf a :: ts) = rowUnspaced ts := by
  have hspace : (Tree.leaf a).isSpace = true := beq_iff_eq.mpr ha
  rw [rowUnspaced, if_pos hspace]

/-- Before the first tree that `rowUnspaced` leaves of a row there is whitespace, and nothing
else. -/
theorem exists_of_rowUnspaced_eq (ts : List Tree) :
    (rowUnspaced ts = [] ∧
        ∃ bs : List Token, (∀ b ∈ bs, b.kind = .whitespace) ∧ ts = bs.map .leaf) ∨
      ∃ (bs : List Token) (t : Tree) (us : List Tree), (∀ b ∈ bs, b.kind = .whitespace) ∧
        ts = bs.map .leaf ++ t :: us ∧ rowUnspaced ts = t.unspaced :: rowUnspaced us := by
  induction ts with
  | nil => exact .inl ⟨rfl, [], by simp, rfl⟩
  | cons t ts ih =>
    by_cases ht : t.isSpace
    · cases t with
      | node => cases ht
      | leaf a =>
        have ha : a.kind = .whitespace := beq_iff_eq.mp ht
        rw [rowUnspaced_space_cons ha]
        have hcons : ∀ {bs : List Token}, (∀ b ∈ bs, b.kind = .whitespace) →
            ∀ b ∈ a :: bs, b.kind = .whitespace := by
          intro bs hbs b hb
          rcases List.mem_cons.mp hb with rfl | hb
          · exact ha
          · exact hbs b hb
        rcases ih with ⟨hnil, bs, hbs, rfl⟩ | ⟨bs, t, us, hbs, rfl, hrow⟩
        · exact .inl ⟨hnil, a :: bs, hcons hbs, rfl⟩
        · exact .inr ⟨a :: bs, t, us, hcons hbs, rfl, hrow⟩
    · refine .inr ⟨[], t, ts, by simp, rfl, ?_⟩
      rw [rowUnspaced, if_neg ht]

theorem spots_node_cons (k : Kind) (us ts : List Tree) (s : Nat) :
    spots s (rowLeaves (.node k us :: ts)) =
      spots s (rowLeaves us) ++ spots (s + rowWidth us) (rowLeaves ts) := by
  rw [rowLeaves, leaves, Token.spots_append, rowWidth_eq_widthOf]

theorem spots_spaces_append {bs : List Token} (hbs : ∀ b ∈ bs, b.kind = .whitespace)
    (ts : List Tree) (s : Nat) :
    spots s (rowLeaves (bs.map .leaf ++ ts)) = spots (s + widthOf bs) (rowLeaves ts) := by
  have hnil : ∀ {bs : List Token} (s : Nat), (∀ b ∈ bs, b.kind = .whitespace) →
      spots s bs = [] := by
    intro bs
    induction bs with
    | nil => exact fun _ _ => rfl
    | cons b bs ih =>
      intro s hbs
      rw [spots, if_pos (hbs b List.mem_cons_self)]
      exact ih _ fun b hb => hbs b (List.mem_cons_of_mem _ hb)
  rw [rowLeaves_append, rowLeaves_map_leaf, Token.spots_append, hnil s hbs, List.nil_append]

namespace Alike

variable {R : Nat → Nat → Prop} {s s' : Nat} {ts ts' : List Tree}

theorem skip {bs : List Token} (hbs : ∀ b ∈ bs, b.kind = .whitespace)
    (h : Alike R s ts (s' + widthOf bs) ts') : Alike R s ts s' (bs.map .leaf ++ ts') := by
  induction bs generalizing s' with
  | nil => exact h
  | cons b bs ih =>
    have htail : ∀ b ∈ bs, b.kind = .whitespace := fun b hb => hbs b (List.mem_cons_of_mem _ hb)
    refine .spaceRight (hbs b List.mem_cons_self) (ih htail ?_)
    rwa [Token.widthOf_cons, ← Nat.add_assoc] at h

/-- Rows that are the same under `rowUnspaced` are `Alike`. -/
theorem of_unspaced : ∀ (ts : List Tree) {ts' : List Tree} {s s' : Nat},
    rowUnspaced ts' = rowUnspaced ts →
    List.Forall₂ (fun x x' => x'.1 = x.1 ∧ R x.2 x'.2) (spots s (rowLeaves ts))
      (spots s' (rowLeaves ts')) → Alike R s ts s' ts'
  | [], ts', s, s', h, _ => by
    rcases exists_of_rowUnspaced_eq ts' with ⟨-, bs, hbs, rfl⟩ | ⟨bs, t, us, -, -, hrow⟩
    · rw [← List.append_nil (bs.map _)]
      exact .skip hbs .nil
    · cases hrow.symm.trans h
  | .leaf a :: ts, ts', s, s', h, hspots => by
    by_cases ha : a.kind = .whitespace
    · rw [rowUnspaced_space_cons ha] at h
      rw [rowLeaves, leaves, List.singleton_append, spots, if_pos ha] at hspots
      exact .spaceLeft ha (of_unspaced ts h hspots)
    · rw [rowUnspaced_leaf_cons ha] at h
      rcases exists_of_rowUnspaced_eq ts' with ⟨hnil, -⟩ | ⟨bs, t, us, hbs, rfl, hrow⟩
      · cases hnil.symm.trans h
      · obtain ⟨ht, hus⟩ := List.cons.inj (hrow.symm.trans h)
        cases t with
        | node => cases ht
        | leaf b =>
          cases ht
          rw [spots_spaces_append hbs, rowLeaves, rowLeaves, leaves, List.singleton_append,
            List.singleton_append, spots, spots, if_neg ha, if_neg ha] at hspots
          cases hspots with
          | cons hfirst hspots =>
            exact .skip hbs (.leaf ha hfirst.2 (of_unspaced ts hus hspots))
  | .node k vs :: ts, ts', s, s', h, hspots => by
    rw [rowUnspaced_node_cons] at h
    rcases exists_of_rowUnspaced_eq ts' with ⟨hnil, -⟩ | ⟨bs, t, us, hbs, rfl, hrow⟩
    · cases hnil.symm.trans h
    · obtain ⟨ht, hus⟩ := List.cons.inj (hrow.symm.trans h)
      cases t with
      | leaf => cases ht
      | node j vs' =>
        obtain ⟨rfl, hvs⟩ := Tree.node.inj ht
        rw [spots_spaces_append hbs, spots_node_cons, spots_node_cons] at hspots
        -- the tokens of the two nodes are as many, so the tokens after them come apart too
        have hlength : (spots s (rowLeaves vs)).length =
            (spots (s' + widthOf bs) (rowLeaves vs')).length := by
          rw [← List.length_map Prod.fst, ← List.length_map Prod.fst, Token.map_fst_spots,
            Token.map_fst_spots, ← rowLeaves_rowUnspaced, ← rowLeaves_rowUnspaced, hvs]
        have htake := List.forall₂_take_append _ _ _ hspots
        have hdrop := List.forall₂_drop_append _ _ _ hspots
        rw [← hlength, List.take_left] at htake
        rw [← hlength, List.drop_left] at hdrop
        exact .skip hbs (.node (of_unspaced vs hvs htake) (of_unspaced ts hus hdrop))

/-! ### Leaves of alike rows -/

/-- `Alike` rows have the same leaves, whitespace apart. -/
theorem leaf_mem_iff (h : Alike R s ts s' ts') {a : Token} (ha : a.kind ≠ .whitespace) :
    Tree.leaf a ∈ ts ↔ Tree.leaf a ∈ ts' := by
  induction h with
  | nil => exact Iff.rfl
  | @spaceLeft _ _ b _ _ hb _ ih =>
    have hne : a ≠ b := by
      rintro rfl
      exact ha hb
    rw [List.mem_cons, Tree.leaf.injEq, or_iff_right hne, ih]
  | @spaceRight _ _ b _ _ hb _ ih =>
    have hne : a ≠ b := by
      rintro rfl
      exact ha hb
    rw [List.mem_cons, Tree.leaf.injEq, or_iff_right hne, ih]
  | leaf _ _ _ ih => rw [List.mem_cons, List.mem_cons, ih]
  | node _ _ _ ih =>
    rw [List.mem_cons, List.mem_cons, ih, or_iff_right Tree.noConfusion,
      or_iff_right Tree.noConfusion]

/-- The first leaves of `Alike` rows are the same, and their offsets are related by `R`. -/
theorem first {a a' : Token} (h : Alike R s (.leaf a :: ts) s' (.leaf a' :: ts'))
    (ha : a.kind ≠ .whitespace) (ha' : a'.kind ≠ .whitespace) : a' = a ∧ R s s' := by
  cases h with
  | spaceLeft h => exact absurd h ha
  | spaceRight h => exact absurd h ha'
  | leaf _ hr _ => exact ⟨rfl, hr⟩

/-- The last leaves of `Alike` rows start at offsets that are related by `R`. -/
theorem last (h : Alike R s ts s' ts') {a a' : Token} (ha : a.kind ≠ .whitespace)
    (ha' : a'.kind ≠ .whitespace) : ∀ {us us' : List Tree}, ts = us ++ [.leaf a] →
      ts' = us' ++ [.leaf a'] → R (s + rowWidth us) (s' + rowWidth us') := by
  -- where a row is at its last leaf, the other row cannot go on to one of its own
  induction h with
  | nil =>
    intro us us' hus
    cases us <;> cases hus
  | @spaceLeft s s' b ts ts' hb _ ih =>
    intro us us' hus hus'
    cases us with
    | nil =>
      cases hus
      exact absurd hb ha
    | cons u us =>
      obtain ⟨rfl, rfl⟩ := List.cons.inj hus
      rw [rowWidth, width, ← Nat.add_assoc]
      exact ih rfl hus'
  | @spaceRight s s' b ts ts' hb _ ih =>
    intro us us' hus hus'
    cases us' with
    | nil =>
      cases hus'
      exact absurd hb ha'
    | cons u us' =>
      obtain ⟨rfl, rfl⟩ := List.cons.inj hus'
      rw [rowWidth.eq_2 _ us', width, ← Nat.add_assoc]
      exact ih hus rfl
  | @leaf s s' b ts ts' _ hr h ih =>
    intro us us' hus hus'
    cases us with
    | nil =>
      cases us' with
      | nil => exact hr
      | cons u us' =>
        obtain ⟨-, rfl⟩ := List.cons.inj hus
        obtain ⟨-, rfl⟩ := List.cons.inj hus'
        have hmem := (h.leaf_mem_iff ha').mpr (by simp)
        cases hmem
    | cons u us =>
      cases us' with
      | nil =>
        obtain ⟨-, rfl⟩ := List.cons.inj hus
        obtain ⟨-, rfl⟩ := List.cons.inj hus'
        have hmem := (h.leaf_mem_iff ha).mp (by simp)
        cases hmem
      | cons u' us' =>
        obtain ⟨rfl, rfl⟩ := List.cons.inj hus
        obtain ⟨rfl, rfl⟩ := List.cons.inj hus'
        rw [rowWidth, rowWidth, width, ← Nat.add_assoc, ← Nat.add_assoc]
        exact ih rfl rfl
  | @node s s' k vs vs' ts ts' _ _ _ ih =>
    intro us us' hus hus'
    cases us with
    | nil => cases hus
    | cons u us =>
      cases us' with
      | nil => cases hus'
      | cons u' us' =>
        obtain ⟨rfl, rfl⟩ := List.cons.inj hus
        obtain ⟨rfl, rfl⟩ := List.cons.inj hus'
        rw [rowWidth, rowWidth, width, width, ← Nat.add_assoc, ← Nat.add_assoc]
        exact ih rfl rfl

end Alike

end Tree

/-! ### Nodes that are alike -/

namespace Form

/-- Two nodes are of one kind, and the rows inside them are `Alike`. -/
structure Alike (R : Nat → Nat → Prop) (f f' : Form) : Prop where
  kind : f'.kind = f.kind
  row : Tree.Alike R f.start f.children f'.start f'.children

end Form

namespace Tree.Alike

variable {R : Nat → Nat → Prop} {s s' : Nat} {ts ts' : List Tree}

/-- The nodes in `Alike` rows are `Form.Alike`, one by one. -/
theorem rowWithin (h : Alike R s ts s' ts') : ∀ around around' : List Site,
    List.Forall₂ (Form.Alike R) (Form.rowWithin around s ts) (Form.rowWithin around' s' ts') := by
  induction h with
  | nil => exact fun _ _ => .nil
  | spaceLeft _ _ ih => exact ih
  | spaceRight _ _ ih => exact ih
  | leaf _ _ _ ih => exact ih
  | node h _ ih ih' =>
    intro around around'
    exact List.rel_append (.cons ⟨rfl, h⟩ (ih _ _)) (ih' around around')

theorem inRow (h : Alike R s ts s' ts') (around around' : List Site) :
    List.Forall₂ (Form.Alike R) (Form.inRow around s ts) (Form.inRow around' s' ts') := by
  induction h with
  | nil => exact .nil
  | spaceLeft _ _ ih => exact ih
  | spaceRight _ _ ih => exact ih
  | leaf _ _ _ ih => exact ih
  | node h _ _ ih => exact .cons ⟨rfl, h⟩ ih

end Tree.Alike

/-! ### Documents that are alike -/

theorem forall₂_mem {α β : Type} {R : α → β → Prop} {xs : List α} {ys : List β}
    (h : List.Forall₂ R xs ys) : List.Forall₂ (fun x y => x ∈ xs ∧ y ∈ ys ∧ R x y) xs ys := by
  induction h with
  | nil => exact .nil
  | cons hab _ ih =>
    refine .cons ⟨List.mem_cons_self, List.mem_cons_self, hab⟩ (ih.imp ?_)
    rintro x y ⟨hx, hy, hxy⟩
    exact ⟨List.mem_cons_of_mem _ hx, List.mem_cons_of_mem _ hy, hxy⟩

theorem rel_getLast? {α β : Type} {R : α → β → Prop} {xs : List α} {ys : List β}
    (h : List.Forall₂ R xs ys) : Option.Rel R xs.getLast? ys.getLast? := by
  have hreverse := List.rel_reverse h
  rw [List.getLast?_eq_head?_reverse, List.getLast?_eq_head?_reverse]
  generalize xs.reverse = us at hreverse
  generalize ys.reverse = vs at hreverse
  cases hreverse with
  | nil => exact .none
  | cons hab _ => exact .some hab

namespace Form

/-- A form starts with a token that is no whitespace. -/
theorem Placed.exists_first {d : Document} {f : Form} (h : Placed d.tree f) (hk : f.kind.isForm) :
    ∃ a us, f.children = .leaf a :: us ∧ a.kind ≠ .whitespace := by
  obtain ⟨rest, -, hform⟩ := h.exists_isForm hk
  obtain ⟨a, us, hchildren, htrivia, -⟩ := hform.exists_leaf
  refine ⟨a, us, hchildren, ?_⟩
  intro hkind
  rw [hkind] at htrivia
  cases htrivia

theorem Placed.exists_spot {d : Document} {f : Form} (h : Placed d.tree f) (hk : f.kind.isForm) :
    ∃ a, (a, f.start) ∈ spots 0 (scan d.text) := by
  obtain ⟨a, us, hchildren, ha⟩ := h.exists_first hk
  obtain ⟨L, R, hleaves, hstart⟩ := h.exists_context
  refine ⟨a, ?_⟩
  have hmem := Token.mem_spots ha L (Tree.rowLeaves us ++ R) 0
  rw [Nat.zero_add] at hmem
  rw [← d.leaves_tree, hleaves, hchildren, hstart]
  exact hmem

/-- A collection `isClosed` when it has a closer of its own. -/
theorem Placed.isClosed_iff {d : Document} {f : Form} (h : Placed d.tree f) (hk : f.isCollection) :
    f.isClosed ↔ ∃ c : Token, c.kind.isCloser ∧ .leaf c ∈ f.children := by
  obtain ⟨o, es, hchildren, ho, -, hends⟩ := h.exists_delimiters hk
  rcases hends with ⟨hclosed, xs, c, hes, hc, -⟩ | ⟨hopen, -, htrivia⟩
  · refine iff_of_true hclosed ⟨c, Kind.isCloser_of_ending? hc, ?_⟩
    simp [hchildren, hes]
  · refine iff_of_false hopen ?_
    rintro ⟨c, hc, hmem⟩
    rw [hchildren] at hmem
    rcases List.mem_cons.mp hmem with heq | hmem
    · cases heq
      cases hkind : o.kind <;> rw [hkind] at ho hc <;> cases hc <;> cases ho
    · have htrivia := htrivia c hmem
      cases hkind : c.kind <;> rw [hkind] at htrivia hc <;> cases htrivia <;> cases hc

/-- An atom is one token. -/
theorem Placed.children_of_atom {d : Document} {f : Form} (h : Placed d.tree f)
    (hk : f.kind = .atom) {a : Token} {us : List Tree} (hchildren : f.children = .leaf a :: us) :
    us = [] := by
  obtain ⟨rest, -, hform⟩ := h.exists_isForm (by rw [hk]; rfl)
  rw [hk, hchildren] at hform
  cases hform with
  | atom => rfl
  | closed ho => cases hkind : a.kind <;> rw [hkind] at ho <;> cases ho
  | unclosed ho => cases hkind : a.kind <;> rw [hkind] at ho <;> cases ho

/-- The `innerStop` of a closed collection is where its closer starts. -/
theorem Placed.exists_closer {d : Document} {f : Form} (h : Placed d.tree f) (hk : f.isCollection)
    (hclosed : f.isClosed) :
    ∃ us c, f.children = us ++ [.leaf c] ∧ c.kind ≠ .whitespace ∧
      f.innerStop = f.start + Tree.rowWidth us := by
  obtain ⟨o, es, hchildren, -, -, hends⟩ := h.exists_delimiters hk
  rcases hends with ⟨-, xs, c, rfl, hc, hlength⟩ | ⟨hopen, -⟩
  · refine ⟨.leaf o :: xs, c, hchildren, ?_, ?_⟩
    · intro hkind
      have hcloser := Kind.isCloser_of_ending? hc
      rw [hkind] at hcloser
      cases hcloser
    · have hstop := (h.framed hk).innerStop_of_isClosed hclosed
      rw [f.stop_eq, hchildren, ← List.cons_append, Tree.rowWidth_append, Tree.rowWidth,
        Tree.rowWidth, Tree.rowWidth, Tree.width, Tree.width, hlength] at hstop
      rw [Tree.rowWidth, Tree.width]
      omega
  · exact absurd hclosed hopen

/-- The `innerStop` of an open collection is the end of the text. -/
theorem Placed.innerStop_of_open {d : Document} {f : Form} (h : Placed d.tree f)
    (hk : f.isCollection) (hopen : ¬f.isClosed) : f.innerStop = d.text.length := by
  obtain ⟨o, es, -, -, -, hends⟩ := h.exists_delimiters hk
  rcases hends with ⟨hclosed, -⟩ | ⟨-, hend, -⟩
  · exact absurd hclosed hopen
  · rw [innerStop, if_neg hopen, hend]
    rfl

/-- A node of a document and a node of another one are `Alike`, and their tokens move with their
lines. -/
structure Pair (shift : Nat → Int) (d d' : Document) (f f' : Form) : Prop extends
    Alike (Follows shift d.text d'.text) f f' where
  placed : Placed d.tree f
  placed' : Placed d'.tree f'

namespace Pair

variable {shift : Nat → Int} {d d' : Document} {f f' : Form} (h : Pair shift d d' f f')
include h

theorem isCollection_eq : f'.isCollection = f.isCollection := by
  rw [isCollection, isCollection, h.kind]

theorem exists_first (hk : f.kind.isForm) :
    ∃ a us us', f.children = .leaf a :: us ∧ f'.children = .leaf a :: us' ∧
      Follows shift d.text d'.text f.start f'.start := by
  obtain ⟨a, us, hchildren, ha⟩ := h.placed.exists_first hk
  obtain ⟨a', us', hchildren', ha'⟩ := h.placed'.exists_first (by rw [h.kind]; exact hk)
  have hrow := h.row
  rw [hchildren, hchildren'] at hrow
  obtain ⟨rfl, hstart⟩ := hrow.first ha ha'
  exact ⟨a', us, us', hchildren, hchildren', hstart⟩

/-- A form `Follows` the line that it starts on. -/
theorem start (hk : f.kind.isForm) : Follows shift d.text d'.text f.start f'.start := by
  obtain ⟨a, us, us', -, -, hstart⟩ := h.exists_first hk
  exact hstart

theorem isSymbol (hk : f.kind.isForm) : f'.isSymbol = f.isSymbol := by
  obtain ⟨a, us, us', hchildren, hchildren', -⟩ := h.exists_first hk
  rw [Form.isSymbol, Form.isSymbol, isAtomOf, isAtomOf, firstKind?, firstKind?, hchildren,
    hchildren', h.kind]
  rfl

/-- A symbol is written as it was. -/
theorem text_of_isSymbol (hs : f.isSymbol) : f'.text = f.text := by
  rw [Form.isSymbol, isAtomOf, Bool.and_eq_true, beq_iff_eq] at hs
  have hform : f.kind.isForm := by
    rw [hs.1]
    rfl
  obtain ⟨a, us, us', hchildren, hchildren', -⟩ := h.exists_first hform
  have hnil := h.placed.children_of_atom hs.1 hchildren
  have hnil' := h.placed'.children_of_atom (h.kind.trans hs.1) hchildren'
  rw [text, text, hchildren, hchildren', hnil, hnil']

variable (hk : f.isCollection)
include hk

theorem isClosed_iff : f.isClosed ↔ f'.isClosed := by
  rw [h.placed.isClosed_iff hk, h.placed'.isClosed_iff (h.isCollection_eq.trans hk)]
  refine exists_congr fun c => and_congr_right fun hc => h.row.leaf_mem_iff fun hkind => ?_
  rw [hkind] at hc
  cases hc

/-- The `innerStop` of a closed collection `Follows` its line. -/
theorem innerStop (hclosed : f.isClosed) :
    Follows shift d.text d'.text f.innerStop f'.innerStop := by
  obtain ⟨us, c, hchildren, hc, hstop⟩ := h.placed.exists_closer hk hclosed
  obtain ⟨us', c', hchildren', hc', hstop'⟩ :=
    h.placed'.exists_closer (h.isCollection_eq.trans hk) ((h.isClosed_iff hk).mp hclosed)
  rw [hstop, hstop']
  exact h.row.last hc hc' hchildren hchildren'

/-- A `Pair` of collections `holds` offsets that move with their lines. -/
theorem holds_iff {p p' : Nat} (hp : Follows shift d.text d'.text p p') :
    f.holds p ↔ f'.holds p' := by
  have hk' : f'.isCollection := h.isCollection_eq.trans hk
  have hstart := (h.start (Kind.isForm_of_isCollection hk)).lt_iff hp
  have hstop : p ≤ f.innerStop ↔ p' ≤ f'.innerStop := by
    by_cases hclosed : f.isClosed
    · have hlt := (h.innerStop hk hclosed).lt_iff hp
      omega
    · -- an open collection holds everything after its opener
      have hopen' : ¬f'.isClosed := fun hc => hclosed ((h.isClosed_iff hk).mpr hc)
      rw [h.placed.innerStop_of_open hk hclosed, h.placed'.innerStop_of_open hk' hopen']
      exact iff_of_true hp.le hp.le'
  rw [holds, holds, Bool.and_eq_true, Bool.and_eq_true, decide_eq_true_eq, decide_eq_true_eq,
    decide_eq_true_eq, decide_eq_true_eq, (h.placed.framed hk).innerStart_eq,
    (h.placed'.framed hk').innerStart_eq, hstop]
  exact and_congr_left fun _ => hstart

omit hk in
/-- The forms in the nodes of a `Pair` are pairs. -/
theorem forms :
    List.Forall₂ (fun g g' => Pair shift d d' g g' ∧ g.kind.isForm) f.forms f'.forms := by
  have hnodes : List.Forall₂ (Pair shift d d') f.nodes f'.nodes := by
    refine (forall₂_mem (h.row.inRow _ _)).imp ?_
    rintro g g' ⟨hg, hg', halike⟩
    exact ⟨halike, h.placed.of_mem_nodes hg, h.placed'.of_mem_nodes hg'⟩
  have hforms : List.Forall₂ (Pair shift d d') f.forms f'.forms := by
    refine List.rel_filter (fun {g g'} hpair => ?_) hnodes
    show g.kind.isForm = true ↔ g'.kind.isForm = true
    rw [hpair.kind]
  refine (forall₂_mem hforms).imp ?_
  rintro g g' ⟨hg, -, hpair⟩
  exact ⟨hpair, (List.mem_filter.mp hg).2⟩

end Pair

end Form

namespace Document

open Form (Pair)

variable {shift : Nat → Int} {d d' : Document}

/-- Where one text is the other `Respaced`, the nodes are pairs. -/
theorem nodes_pair (h : Respaced shift d.text d'.text) :
    List.Forall₂ (Pair shift d d') d.nodes d'.nodes := by
  obtain ⟨ts, htree, -⟩ := d.exists_row
  obtain ⟨ts', htree', -⟩ := d'.exists_row
  have hleaves : Tree.rowLeaves ts = scan d.text := by
    rw [← d.leaves_tree, htree]
    rfl
  have hleaves' : Tree.rowLeaves ts' = scan d'.text := by
    rw [← d'.leaves_tree, htree']
    rfl
  have hunspaced : Tree.rowUnspaced ts' = Tree.rowUnspaced ts := by
    have hread : d'.tree.unspaced = d.tree.unspaced := by
      rw [d.tree_eq, d'.tree_eq, Tree.parse, Tree.parse, Tree.unspaced_read, Tree.unspaced_read,
        h.significant]
    rw [htree, htree'] at hread
    exact (Tree.node.inj hread).2
  have hrow : Tree.Alike (Follows shift d.text d'.text) 0 ts 0 ts' := by
    refine .of_unspaced ts hunspaced ?_
    rw [hleaves, hleaves']
    exact h
  have hnodes : List.Forall₂ (Form.Alike (Follows shift d.text d'.text)) d.nodes d'.nodes := by
    rw [d.nodes_eq, d'.nodes_eq, htree, htree']
    exact .cons ⟨rfl, hrow⟩ (hrow.rowWithin _ _)
  refine (forall₂_mem hnodes).imp ?_
  rintro f f' ⟨hf, hf', halike⟩
  exact ⟨halike, placed_of_mem_nodes hf, placed_of_mem_nodes hf'⟩

/-- The `innermost?` collections at offsets that move with their lines are a `Pair`. -/
theorem innermost?_pair (h : Respaced shift d.text d'.text) {p p' : Nat}
    (hp : Follows shift d.text d'.text p p') :
    Option.Rel (fun f f' => Pair shift d d' f f' ∧ f.isCollection) (d.innermost? p)
      (d'.innermost? p') := by
  have hholds : List.Forall₂ (Pair shift d d')
      (d.nodes.filter fun f => f.isCollection && f.holds p)
      (d'.nodes.filter fun f => f.isCollection && f.holds p') := by
    refine List.rel_filter (fun {f f'} hpair => ?_) (nodes_pair h)
    show (f.isCollection && f.holds p) = true ↔ (f'.isCollection && f'.holds p') = true
    rw [Bool.and_eq_true, Bool.and_eq_true, hpair.isCollection_eq]
    exact and_congr_right fun hk => hpair.holds_iff hk hp
  refine rel_getLast? ((forall₂_mem hholds).imp ?_)
  rintro f f' ⟨hf, -, hpair⟩
  have hf := (List.mem_filter.mp hf).2
  rw [Bool.and_eq_true] at hf
  exact ⟨hpair, hf.1⟩

end Document

end SexpEdit
