/-
The edges of forms.

An offset at the edge of a form may be the edge of several forms, and a collection counts both edges
of its interior as inside.  Still the edges of a form are in the interior of the collections around
it and of no others.  Its first edge is never in a collection before it, since a collection that ends
without a closer ends with the text.  The same holds of its last edge, when every collection in the
form is closed.  So a search by offset, at the edge of a form, finds what climbing from the form
finds.

* `Document.holds_start_iff`, `Document.holds_stop_iff` — which collections have an edge of a form
  in their interior;
* `Document.innermost?_start`, `Document.innermost?_stop` — the innermost collection at an edge of a
  form is the one around the form;
* `Document.IsContainer.container_start`, `Document.IsContainer.container_stop` — the container at an
  edge of a form is the one the form stands in.
-/
import SexpEdit.Proofs.Nesting
import SexpEdit.Proofs.Regrouping

namespace SexpEdit

open SexpEdit.Tree Grammar
open Token (scan)

theorem Grammar.IsForm.ne_root {rest : List Token} {k : Kind} {us : List Tree}
    (h : IsForm rest (.node k us)) : k ≠ .root := by
  rintro rfl
  cases h with
  | closed ho => cases Kind.isCollection_of_collection? ho
  | unclosed ho => cases Kind.isCollection_of_collection? ho

namespace Form

/-! ### What is around a node inside another -/

mutual

theorem suffix_of_mem_within : ∀ {t : Tree} {around : List Site} {start : Nat} {f : Form},
    f ∈ within around start t → around <:+ f.around
  | .leaf _, _, _, _, h => absurd h List.not_mem_nil
  | .node k ts, around, start, f, h => by
    rw [within] at h
    rcases List.mem_cons.mp h with rfl | h
    · exact List.suffix_refl around
    · exact (List.suffix_cons _ around).trans (suffix_of_mem_rowWithin h)

theorem suffix_of_mem_rowWithin : ∀ {ts : List Tree} {around : List Site} {start : Nat} {f : Form},
    f ∈ rowWithin around start ts → around <:+ f.around
  | [], _, _, _, h => absurd h List.not_mem_nil
  | t :: ts, around, start, f, h => by
    rw [rowWithin] at h
    rcases List.mem_append.mp h with h | h
    · exact suffix_of_mem_within h
    · exact suffix_of_mem_rowWithin h

end

/-- What is `inside` a node has the node around it, and all that is around the node. -/
theorem suffix_of_mem_inside {f g : Form} (h : f ∈ g.inside) : g.toSite :: g.around <:+ f.around :=
  suffix_of_mem_rowWithin h

/-- What is `inside` a node is deeper than the node. -/
theorem depth_lt_of_mem_inside {f g : Form} (h : f ∈ g.inside) :
    g.around.length < f.around.length :=
  (suffix_of_mem_inside h).length_le

theorem mem_rowWithin_of_mem_inRow {around : List Site} {f : Form} : ∀ {ts : List Tree}
    {start : Nat}, f ∈ inRow around start ts → f ∈ rowWithin around start ts
  | .leaf t :: ts, start, h => by
    rw [inRow] at h
    rw [rowWithin, within, List.nil_append]
    exact mem_rowWithin_of_mem_inRow h
  | .node k us :: ts, start, h => by
    rw [inRow] at h
    rw [rowWithin, within]
    rcases List.mem_cons.mp h with rfl | h
    · exact List.mem_append_left _ List.mem_cons_self
    · exact List.mem_append_right _ (mem_rowWithin_of_mem_inRow h)

/-- The nodes of a row are `inside` the node that has the row. -/
theorem mem_inside_of_mem_nodes {f g : Form} (h : g ∈ f.nodes) : g ∈ f.inside :=
  mem_rowWithin_of_mem_inRow h

theorem around_of_mem_nodes {f g : Form} (h : g ∈ f.nodes) : g.around = f.toSite :: f.around := by
  obtain ⟨x, y, -, hgx⟩ := exists_of_mem_inRow h
  rw [hgx]
  rfl

/-- A form in the row of a collection has that collection as its `enclosing?` one; in the row of the
document it has none. -/
theorem enclosing?_of_mem_forms {c f : Form} (hc : c.kind ≠ .prefixed) (hf : f ∈ c.forms) :
    f.enclosing? = if c.isCollection then some c else none := by
  obtain ⟨x, y, -, hfx⟩ := exists_of_mem_inRow (mem_nodes_of_mem_forms hf)
  have hcontainer : f.container? = some c := by
    rw [container?, hfx, outermost_of_not_prefixed hc]
    rfl
  rw [enclosing?, hcontainer, Option.filter_some]

mutual

theorem outermost_of_collectionOf? {g : Form} : ∀ {t : Tree} {around : List Site} {start : Nat}
    {k : Kind} {ts : List Tree}, t = .node k ts → collectionOf? around start t = some g →
      g.outermost = climb (Site.ofNode k start ts) around
  | .leaf _, _, _, _, _, heq, _ => by cases heq
  | .node k ts, around, start, _, _, rfl, h => by
    rw [collectionOf?] at h
    split at h
    · obtain rfl := Option.some.inj h
      rfl
    · split at h
      · rename_i hk
        exact outermost_of_operandOf? (p := Site.ofNode k start ts) hk h
      · cases h

theorem outermost_of_operandOf? {g : Form} : ∀ {ts : List Tree} {p : Site} {around : List Site}
    {start : Nat}, p.kind = .prefixed → operandOf? (p :: around) start ts = some g →
      g.outermost = climb p around
  | [], _, _, _, _, h => by cases h
  | .leaf t :: ts, p, around, start, hp, h => by
    rw [operandOf?] at h
    exact outermost_of_operandOf? hp h
  | .node k us :: ts, p, around, start, hp, h => by
    rw [operandOf?] at h
    split at h
    · rw [outermost_of_collectionOf? rfl h, climb, if_pos hp]
    · exact outermost_of_operandOf? hp h

end

/-- The collection that `asCollection?` leads to has around it what is around the prefixes. -/
theorem Placed.enclosing?_of_asCollection? {root : Tree} {f g : Form} (hf : Placed root f)
    (h : f.asCollection? = some g) : g.enclosing? = f.enclosing? := by
  have hsite : Site.ofNode f.kind f.start f.children = f.toSite := by
    cases hf with
    | root => rfl
    | child => rfl
  have hout := outermost_of_collectionOf? rfl h
  rw [hsite] at hout
  rw [enclosing?, enclosing?, container?, container?, hout]
  rfl

theorem holds_iff_between {f : Form} {offset : Nat} :
    f.holds offset ↔ f.innerStart ≤ offset ∧ offset ≤ f.innerStop := by
  rw [holds, Bool.and_eq_true, decide_eq_true_eq, decide_eq_true_eq]

namespace Placed

variable {d : Document} {f : Form}

theorem mem_nodes (h : Placed d.tree f) : f ∈ d.nodes := by
  obtain ⟨xs, ys, hnodes, -⟩ := h.nodes_split
  rw [d.nodes_eq, hnodes]
  exact List.mem_append_right _ List.mem_cons_self

theorem mem_nodes_of_mem_inside {g : Form} (h : Placed d.tree f) (hg : g ∈ f.inside) :
    g ∈ d.nodes := by
  obtain ⟨xs, ys, hnodes, -⟩ := h.nodes_split
  rw [d.nodes_eq, hnodes]
  exact List.mem_append_right _ (List.mem_cons_of_mem _ (List.mem_append_left _ hg))

theorem mem_nodes_of_mem_cons {g : Form} (h : Placed d.tree f) (hg : g ∈ f :: f.inside) :
    g ∈ d.nodes := by
  rcases List.mem_cons.mp hg with rfl | hg
  · exact h.mem_nodes
  · exact h.mem_nodes_of_mem_inside hg

theorem mem_forms_of_mem {g : Form} (h : Placed d.tree f) (hg : g ∈ f.forms) : g ∈ d.forms :=
  Document.mem_forms_iff.mpr ⟨(h.of_mem_forms hg).mem_nodes, (List.mem_filter.mp hg).2⟩

/-- A form `isForm` has characters. -/
theorem start_lt_stop (h : Placed d.tree f) (hk : f.kind.isForm) : f.start < f.stop := by
  obtain ⟨rest, -, hform⟩ := h.exists_isForm hk
  obtain ⟨a, us, hchildren, -⟩ := hform.exists_leaf
  obtain ⟨L, R, hleaves, -⟩ := h.exists_context
  have hmem : a ∈ scan d.text := by
    rw [← d.leaves_tree, hleaves, hchildren, rowLeaves, leaves]
    simp
  have hpos : 0 < a.text.length := List.length_pos_iff.mpr (Token.scan_text_ne_nil hmem)
  have hstop : f.stop = f.start + (a.text.length + rowWidth us) := by
    rw [f.stop_eq, hchildren, rowWidth, width]
  omega

/-- A collection that is not `isClosed` ends with the text. -/
theorem stop_of_open (h : Placed d.tree f) (hk : f.isCollection) (hopen : ¬f.isClosed) :
    f.stop = d.length := by
  obtain ⟨o, es, -, -, -, ⟨hclosed, -⟩ | ⟨-, hstop, -⟩⟩ := h.exists_delimiters hk
  · exact absurd hclosed hopen
  · exact hstop

/-- What is `inside` a closed collection ends before the text does, so its collections are
closed. -/
theorem isClosed_of_mem_inside {g : Form} (h : Placed d.tree f) (hk : f.isCollection)
    (hclosed : f.isClosed) (hg : g ∈ f.inside) (hgk : g.isCollection) : g.isClosed := by
  by_contra hopen
  have hend := (Document.placed_of_mem_nodes (h.mem_nodes_of_mem_inside hg)).stop_of_open hgk hopen
  have hinner := (h.framed hk).innerStop_of_isClosed hclosed
  have hin := (h.interior_of_mem_inside hk hg).2
  have hstop := h.stop_le
  omega

/-- A collection `holds` what a collection inside it holds. -/
theorem holds_of_mem_inside {g : Form} {offset : Nat} (h : Placed d.tree f) (hk : f.isCollection)
    (hg : g ∈ f.inside) (hgk : g.isCollection) (hholds : g.holds offset) : f.holds offset := by
  have hframed := (Document.placed_of_mem_nodes (h.mem_nodes_of_mem_inside hg)).framed hgk
  have hbounds := hframed.bounds_of_holds hholds
  have hinner := hframed.inner_bounds
  have hin := h.interior_of_mem_inside hk hg
  refine holds_iff_between.mpr ?_
  omega

/-- Only the document has nothing around it. -/
theorem around_eq_nil (h : Placed d.tree f) (hk : f.kind = .root) : f.around = [] := by
  cases h with
  | root => rfl
  | @child p k us pre post hp hsplit =>
    obtain rfl : k = .root := hk
    -- a node in a row is a stray closer or a form
    rcases hp.isForm with ⟨-, -, hrow⟩ | ⟨⟨t, ht⟩, -⟩ | ⟨rest, -, hform⟩
    · rw [hsplit] at hrow
      rcases hrow.isForm_of_split with ⟨-, herror⟩ | hform
      · cases herror
      · exact absurd rfl hform.ne_root
    · rw [ht] at hsplit
      cases pre <;> simp at hsplit
    · rcases hform.isForm_of_split hsplit with ⟨-, herror⟩ | hform
      · cases herror
      · exact absurd rfl hform.ne_root

/-- A node with a node in its row is the document, a collection or a prefixed form. -/
theorem container_or_prefixed (h : Placed d.tree f) {k : Kind} {us pre post : List Tree}
    (hsplit : f.children = pre ++ .node k us :: post) :
    f.around = [] ∨ f.isCollection ∨ f.kind = .prefixed := by
  rcases h.isForm with ⟨hroot, -⟩ | ⟨⟨t, ht⟩, -⟩ | ⟨rest, -, hform⟩
  · exact .inl (h.around_eq_nil hroot)
  · rw [ht] at hsplit
    cases pre <;> simp at hsplit
  · rw [hsplit] at hform
    obtain ⟨o, xs, -, ⟨ho, -⟩ | ⟨ho, -⟩ | ⟨-, hp, -⟩⟩ := hform.cases_of_split
    · exact .inr (.inl (Kind.isCollection_of_collection? ho))
    · exact .inr (.inl (Kind.isCollection_of_collection? ho))
    · exact .inr (.inr hp)

end Placed

end Form

namespace Document

open Form (Placed)

variable {d : Document} {c f g : Form}

/-! ### The collections at an edge -/

/-- The interior of a collection has the first edge of a form when the form is `inside` the
collection. -/
theorem holds_start_iff (hf : f ∈ d.forms) (hg : g ∈ d.nodes) (hk : g.isCollection) :
    g.holds f.start ↔ f ∈ g.inside := by
  obtain ⟨hnode, hform⟩ := mem_forms_iff.mp hf
  have hplaced := placed_of_mem_nodes hg
  have hframed := hplaced.framed hk
  have hlt := (placed_of_mem_nodes hnode).start_lt_stop hform
  have hlength := (placed_of_mem_nodes hnode).stop_le
  constructor
  · intro hholds
    have hbounds := hframed.bounds_of_holds hholds
    rcases nested_or_apart hnode hg with rfl | (hin | hin) | (happ | happ)
    · omega
    · have hle := (Form.bounds_of_mem_inside hin).1
      omega
    · exact hin
    · omega
    · -- the collection ends where the form starts, so it lacks its closer, and the text ends there
      have hle := hframed.inner_bounds
      by_cases hclosed : g.isClosed
      · have hstop := hframed.innerStop_of_isClosed hclosed
        omega
      · have hstop := hplaced.stop_of_open hk hclosed
        omega
  · intro hin
    obtain ⟨hstart, hstop⟩ := hplaced.interior_of_mem_inside hk hin
    refine Form.holds_iff_between.mpr ?_
    omega

/-- The interior of a collection has the last edge of a form when the form is `inside` the
collection, if every collection in the form is closed. -/
theorem holds_stop_iff (hf : f ∈ d.forms)
    (hclosed : ∀ h ∈ f :: f.inside, h.isCollection → h.isClosed) (hg : g ∈ d.nodes)
    (hk : g.isCollection) : g.holds f.stop ↔ f ∈ g.inside := by
  obtain ⟨hnode, hform⟩ := mem_forms_iff.mp hf
  have hplaced := placed_of_mem_nodes hg
  have hframed := hplaced.framed hk
  have hlt := (placed_of_mem_nodes hnode).start_lt_stop hform
  constructor
  · intro hholds
    have hbounds := hframed.bounds_of_holds hholds
    have hle := hframed.inner_bounds
    -- the closer of a collection in the form stands before the last edge of the form
    have hinner : g ∈ f :: f.inside → g.innerStop + 1 = g.stop := fun h =>
      hframed.innerStop_of_isClosed (hclosed g h hk)
    rcases nested_or_apart hnode hg with rfl | (hin | hin) | (happ | happ)
    · have hstop := hinner List.mem_cons_self
      omega
    · have hstop := hinner (List.mem_cons_of_mem f hin)
      have hle := (Form.bounds_of_mem_inside hin).2
      omega
    · exact hin
    · omega
    · omega
  · intro hin
    obtain ⟨hstart, hstop⟩ := hplaced.interior_of_mem_inside hk hin
    refine Form.holds_iff_between.mpr ?_
    omega

theorem filter_holds_eq_nil {fs : List Form} {offset : Nat}
    (h : ∀ g ∈ fs, g.isCollection → ¬g.holds offset) :
    fs.filter (fun g => g.isCollection && g.holds offset) = [] := by
  refine List.filter_eq_nil_iff.mpr ?_
  intro g hg hboth
  rw [Bool.and_eq_true] at hboth
  exact h g hg hboth.1 hboth.2

theorem filter_holds_congr {fs : List Form} {a b : Nat}
    (h : ∀ g ∈ fs, g.isCollection → (g.holds a ↔ g.holds b)) :
    fs.filter (fun g => g.isCollection && g.holds a) =
      fs.filter (fun g => g.isCollection && g.holds b) := by
  refine List.filter_congr fun g hg => ?_
  rw [Bool.eq_iff_iff, Bool.and_eq_true, Bool.and_eq_true]
  exact and_congr_right (h g hg)

/-- Where no collection `holds` an offset there is no innermost one. -/
theorem innermost?_of_forall {offset : Nat}
    (h : ∀ g ∈ d.nodes, g.isCollection → ¬g.holds offset) : d.innermost? offset = none := by
  rw [innermost?, filter_holds_eq_nil h]
  rfl

/-- Two offsets in the interiors of the same collections have the same `innermost?` collection. -/
theorem innermost?_congr {a b : Nat}
    (h : ∀ g ∈ d.nodes, g.isCollection → (g.holds a ↔ g.holds b)) :
    d.innermost? a = d.innermost? b := by
  rw [innermost?, innermost?, filter_holds_congr h]

/-- A node around a form is the one that has the form in its row, or is around that one. -/
theorem eq_or_mem_inside (hc : Placed d.tree c) (hf : f ∈ c.forms) (hg : g ∈ d.nodes)
    (hin : f ∈ g.inside) : c = g ∨ c ∈ g.inside := by
  have hnode := Form.mem_nodes_of_mem_forms hf
  have hlt := (hc.of_mem_forms hf).start_lt_stop (List.mem_filter.mp hf).2
  have houter := Form.bounds_of_mem_inside hin
  have hinner := Form.bounds_of_mem_inside (Form.mem_inside_of_mem_nodes hnode)
  rcases nested_or_apart hc.mem_nodes hg with heq | (hgc | hcg) | happ
  · exact .inl heq
  · -- nothing stands between the row of a node and the node
    have hdeep := Form.depth_lt_of_mem_inside hgc
    have hdeeper := Form.depth_lt_of_mem_inside hin
    rw [Form.around_of_mem_nodes hnode, List.length_cons] at hdeeper
    omega
  · exact .inr hcg
  · omega

/-- What a prefix applies to starts in the same `innermost?` collection as the prefix. -/
theorem innermost?_operand (hc : Placed d.tree c) (hk : c.kind = .prefixed) (hf : f ∈ c.forms) :
    d.innermost? f.start = d.innermost? c.start := by
  have hfform := hc.mem_forms_of_mem hf
  have hcform : c ∈ d.forms := mem_forms_iff.mpr ⟨hc.mem_nodes, by rw [hk]; rfl⟩
  refine innermost?_congr fun g hg hcollection => ?_
  rw [holds_start_iff hcform hg hcollection]
  constructor
  · intro hholds
    have hin := (holds_start_iff hfform hg hcollection).mp hholds
    rcases eq_or_mem_inside hc hf hg hin with rfl | hin
    · rw [Form.isCollection, hk] at hcollection
      cases hcollection
    · exact hin
  · intro hin
    have houter := (placed_of_mem_nodes hg).interior_of_mem_inside hcollection hin
    have hinner := Form.bounds_of_mem_forms hf
    have hle := f.start_le_stop
    refine Form.holds_iff_between.mpr ?_
    omega

/-- The forms in the row of a collection start in that collection; those in the row of the document
start in none. -/
theorem innermost?_of_mem_forms (hc : Placed d.tree c) (hk : c.kind ≠ .prefixed)
    (hf : f ∈ c.forms) : d.innermost? f.start = if c.isCollection then some c else none := by
  have hnode := Form.mem_nodes_of_mem_forms hf
  have hfform := hc.mem_forms_of_mem hf
  by_cases hcollection : c.isCollection
  · rw [if_pos hcollection]
    refine hc.innermost?_of_holds hcollection ?_ fun g hg hgk hholds => ?_
    · exact (holds_start_iff hfform hc.mem_nodes hcollection).mpr
        (Form.mem_inside_of_mem_nodes hnode)
    · have hgnode := hc.mem_nodes_of_mem_inside hg
      have hin := (holds_start_iff hfform hgnode hgk).mp hholds
      have hdeep := Form.depth_lt_of_mem_inside hg
      rcases eq_or_mem_inside hc hf hgnode hin with rfl | hcg
      · omega
      · have hdeeper := Form.depth_lt_of_mem_inside hcg
        omega
  · rw [if_neg hcollection]
    refine innermost?_of_forall fun g hg hgk hholds => ?_
    have hin := (holds_start_iff hfform hg hgk).mp hholds
    obtain ⟨x, y, hsplit, -⟩ := Form.exists_of_mem_inRow hnode
    rcases hc.container_or_prefixed hsplit with hnil | hcol | hprefixed
    · -- the row is the document's, and no collection is around the document
      rcases eq_or_mem_inside hc hf hg hin with rfl | hcg
      · exact hcollection hgk
      · have hdeep := Form.depth_lt_of_mem_inside hcg
        rw [hnil, List.length_nil] at hdeep
        omega
    · exact hcollection hcol
    · exact hk hprefixed

/-- **At its first edge a form has around it what climbing from the form finds**: the `innermost?`
collection there is the `enclosing?` one. -/
theorem innermost?_start (hf : f ∈ d.forms) : d.innermost? f.start = f.enclosing? := by
  obtain ⟨hnode, hform⟩ := mem_forms_iff.mp hf
  have hplaced := placed_of_mem_nodes hnode
  clear hf hnode
  -- on the place of the form, from the document inward: a prefix hands on what is around it
  induction hplaced with
  | root hroot =>
    obtain ⟨ts, htree, -⟩ := d.exists_row
    rw [htree] at hroot
    cases hroot
    cases hform
  | @child p k us pre post hp hsplit ih =>
    have hmem : Form.ofNode k (p.start + rowWidth pre) us (p.toSite :: p.around) ∈ p.forms := by
      rw [Form.forms, Form.nodes, hsplit]
      exact List.mem_filter.mpr ⟨Form.mem_inRow, hform⟩
    by_cases hprefixed : p.kind = .prefixed
    · rw [innermost?_operand hp hprefixed hmem, ih (by rw [hprefixed]; rfl), Form.enclosing?,
        Form.enclosing?, Form.container?, Form.container?, Form.outermost_of_prefixed hprefixed]
    · rw [innermost?_of_mem_forms hp hprefixed hmem, Form.enclosing?_of_mem_forms hprefixed hmem]

/-- At its last edge too, when every collection in the form is closed. -/
theorem innermost?_stop (hf : f ∈ d.forms)
    (hclosed : ∀ g ∈ f :: f.inside, g.isCollection → g.isClosed) :
    d.innermost? f.stop = f.enclosing? := by
  rw [← innermost?_start hf]
  refine innermost?_congr fun g hg hk => ?_
  rw [holds_stop_iff hf hclosed hg hk, holds_start_iff hf hg hk]

/-! ### The document as a container -/

theorem root_kind (d : Document) : d.root.kind = .root := by
  obtain ⟨ts, htree, -⟩ := d.exists_row
  rw [root, htree]
  rfl

theorem innerStart_root (d : Document) : d.root.innerStart = 0 := by
  rw [Form.innerStart, Form.opening, root_kind, root]
  split <;> rfl

theorem innerStop_root (d : Document) : d.root.innerStop = d.length := by
  have hstop : d.root.stop = d.length := by
    rcases placed_root.isForm with ⟨-, hstop, -⟩ | ⟨-, herror⟩ | ⟨rest, -, hform⟩
    · exact hstop
    · rw [root_kind] at herror
      cases herror
    · exact absurd (root_kind d) hform.ne_root
  rw [Form.innerStop, Form.closing, root_kind, hstop]
  exact ite_self _

/-! ### The container at an edge -/

/-- The document, or a collection in it. -/
def IsContainer (d : Document) (c : Form) : Prop :=
  c = d.root ∨ c ∈ d.nodes ∧ c.isCollection

/-- The `container` at an offset is one. -/
theorem isContainer_container (d : Document) (offset : Nat) : d.IsContainer (d.container offset) := by
  cases h : d.innermost? offset with
  | none => exact .inl (by rw [container, h]; rfl)
  | some f =>
    obtain ⟨hf, hk, -⟩ := innermost?_eq_some h
    refine .inr ?_
    rw [container, h]
    exact ⟨hf, hk⟩

/-- The `innermost?` collection at an offset is the `container` there, unless that is the
document. -/
theorem innermost?_eq_container (d : Document) (offset : Nat) : d.innermost? offset =
    if (d.container offset).isCollection then some (d.container offset) else none := by
  cases h : d.innermost? offset with
  | none =>
    rw [container, h]
    show none = if d.root.isCollection then some d.root else none
    rw [Form.isCollection, root_kind]
    rfl
  | some f =>
    rw [container, h]
    exact (if_pos (innermost?_eq_some h).2.1).symm

namespace IsContainer

theorem placed (h : d.IsContainer c) : Placed d.tree c := by
  rcases h with rfl | ⟨hc, -⟩
  · exact placed_root
  · exact placed_of_mem_nodes hc

theorem ne_prefixed (h : d.IsContainer c) : c.kind ≠ .prefixed := by
  intro hk
  rcases h with rfl | ⟨-, hcollection⟩
  · rw [root_kind] at hk
    cases hk
  · rw [Form.isCollection, hk] at hcollection
    cases hcollection

theorem getD_eq (h : d.IsContainer c) :
    (if c.isCollection then some c else none).getD d.root = c := by
  rcases h with rfl | ⟨-, hcollection⟩
  · rw [Form.isCollection, root_kind]
    rfl
  · rw [if_pos hcollection]
    rfl

/-- The `container` at the first edge of a form is the one that the form stands in. -/
theorem container_start (h : d.IsContainer c) (hf : f ∈ c.forms) : d.container f.start = c := by
  rw [container, innermost?_of_mem_forms h.placed h.ne_prefixed hf, h.getD_eq]

/-- So is the container at its last edge, when every collection in the form is closed. -/
theorem container_stop (h : d.IsContainer c) (hf : f ∈ c.forms)
    (hclosed : ∀ g ∈ f :: f.inside, g.isCollection → g.isClosed) : d.container f.stop = c := by
  rw [container, innermost?_stop (h.placed.mem_forms_of_mem hf) hclosed,
    Form.enclosing?_of_mem_forms h.ne_prefixed hf, h.getD_eq]

/-! ### The edges of an interior -/

/-- The forms of a container lie between its `innerStart` and its `innerStop`. -/
theorem bounds_of_mem (h : d.IsContainer c) (hf : f ∈ c.forms) :
    c.innerStart ≤ f.start ∧ f.stop ≤ c.innerStop := by
  have hplaced := h.placed.of_mem_forms hf
  rcases h with rfl | ⟨hc, hcollection⟩
  · rw [innerStart_root, innerStop_root]
    exact ⟨Nat.zero_le _, hplaced.stop_le⟩
  · exact (placed_of_mem_nodes hc).interior_of_mem_inside hcollection
      (Form.mem_inside_of_mem_nodes (Form.mem_nodes_of_mem_forms hf))

/-- At its `innerStart` a container is the innermost one. -/
theorem container_innerStart (h : d.IsContainer c) : d.container c.innerStart = c := by
  rcases h with rfl | ⟨hc, hcollection⟩
  · -- every collection has its opener before its interior
    have hnone : d.innermost? 0 = none := by
      refine innermost?_of_forall fun g hg hk hholds => ?_
      have hbounds := ((placed_of_mem_nodes hg).framed hk).bounds_of_holds hholds
      omega
    rw [innerStart_root, container, hnone]
    rfl
  · rw [container, (placed_of_mem_nodes hc).innermost?_innerStart hcollection]
    rfl

/-- At its `innerStop` too, when every collection is closed. -/
theorem container_innerStop (h : d.IsContainer c)
    (hclosed : ∀ g ∈ d.nodes, g.isCollection → g.isClosed) : d.container c.innerStop = c := by
  rcases h with rfl | ⟨hc, hcollection⟩
  · have hnone : d.innermost? d.length = none := by
      refine innermost?_of_forall fun g hg hk hholds => ?_
      have hplaced := placed_of_mem_nodes hg
      have hbounds := (hplaced.framed hk).bounds_of_holds hholds
      have hinner := (hplaced.framed hk).innerStop_of_isClosed (hclosed g hg hk)
      have hstop := hplaced.stop_le
      omega
    rw [innerStop_root, container, hnone]
    rfl
  · have hplaced := placed_of_mem_nodes hc
    have hframed := hplaced.framed hcollection
    have hself : c.holds c.innerStop := by
      have hbounds := hframed.inner_bounds
      rw [Form.holds_iff_between, hframed.innerStart_eq]
      omega
    rw [container, hplaced.innermost?_of_holds hcollection hself]
    · rfl
    · -- what is inside ends before the closer, and its own closer comes before that
      intro g hg hk hholds
      have hnode := hplaced.mem_nodes_of_mem_inside hg
      have hgframed := (placed_of_mem_nodes hnode).framed hk
      have hbounds := hgframed.bounds_of_holds hholds
      have hinner := hgframed.innerStop_of_isClosed (hclosed g hnode hk)
      have hin := hplaced.interior_of_mem_inside hcollection hg
      omega

end IsContainer

end Document

end SexpEdit
