/-
Where forms start and end.

A document may hold stray closers and collections that the text ends in, but every node still lies
in the text, the nodes of a row follow one another, and a collection starts with one character that
opens it and ends, when it is closed, with another that closes it.  These are the facts that keep
offsets in the text; they ask nothing of the document.

* `Form.Placed.isForm` — a node is the document, a stray closer, or a form of the grammar;
* `Form.Placed.stop_le` — a node lies in the text;
* `Form.pairwise_forms` — the nodes of a row follow one another;
* `Form.Placed.framed` — the delimiters of a collection are around its interior;
* `Document.stop_le_of_leaf` — a token lies in the text;
* `Document.ends_target_le` — a motion stays in the text.
-/
import SexpEdit.Motion
import SexpEdit.Proofs.Leaves

namespace SexpEdit

open SexpEdit.Tree
open Token (scan widthOf)

namespace Kind

theorem isForm_of_isCollection {k : Kind} (h : k.isCollection) : k.isForm := by
  cases k <;> cases h <;> rfl

/-- The tokens that forms start with are neither trivia nor closers. -/
theorem startsForm {k : Kind}
    (h : k.isAtomic ∨ k.collection?.isSome ∨ k = .readerPrefix) :
    k.isTrivia = false ∧ k.isCloser = false := by
  revert h
  cases k <;> decide

end Kind

namespace Grammar

/-- A form `IsForm` starts with a token that is neither trivia nor a closer. -/
theorem IsForm.exists_leaf {rest : List Token} {k : Kind} {ts : List Tree}
    (h : IsForm rest (.node k ts)) :
    ∃ a us, ts = .leaf a :: us ∧ a.kind.isTrivia = false ∧ a.kind.isCloser = false := by
  cases h with
  | atom ht => exact ⟨_, _, rfl, Kind.startsForm (.inl ht)⟩
  | closed ho => exact ⟨_, _, rfl, Kind.startsForm (.inr (.inl (by simp [ho])))⟩
  | unclosed ho => exact ⟨_, _, rfl, Kind.startsForm (.inr (.inl (by simp [ho])))⟩
  | prefixed hp => exact ⟨_, _, rfl, Kind.startsForm (.inr (.inr hp))⟩
  | dangling hp => exact ⟨_, _, rfl, Kind.startsForm (.inr (.inr hp))⟩

/-- A node in an `IsRow` is a stray closer or an `IsForm`, with what comes after it in the row and
after the row. -/
theorem IsRow.isForm_of_split {inner : Option Kind} {rest : List Token} {k : Kind}
    {us pre post : List Tree} (h : IsRow inner rest (pre ++ .node k us :: post)) :
    (∃ t, us = [.leaf t]) ∧ k = .error ∨ IsForm (rowLeaves post ++ rest) (.node k us) := by
  induction pre with
  | nil =>
    cases h with
    | @error _ _ t => exact .inl ⟨⟨t, rfl⟩, rfl⟩
    | form ht => exact .inr ht
  | cons u pre ih =>
    cases h with
    | trivia _ hts => exact ih hts
    | error _ _ hts => exact ih hts
    | form _ hts => exact ih hts

/-- A node in an `IsForm` is in the row of a collection, or is what a prefix applies to. -/
theorem IsForm.cases_of_split {rest : List Token} {j k : Kind} {us pre post : List Tree}
    (h : IsForm rest (.node j (pre ++ .node k us :: post))) :
    ∃ o xs, pre = .leaf o :: xs ∧
      ((o.kind.collection? = some j ∧ ∃ c ys, post = ys ++ [.leaf c] ∧ j.ending? = some c.kind ∧
          IsRow j.ending? (c :: rest) (xs ++ .node k us :: ys)) ∨
        (o.kind.collection? = some j ∧ rest = [] ∧
          IsRow j.ending? [] (xs ++ .node k us :: post)) ∨
        (o.kind = .readerPrefix ∧ j = .prefixed ∧ post = [] ∧
          ∃ bs : List Token, xs = bs.map .leaf ∧
            (∀ b ∈ bs, b.kind = .whitespace ∨ b.kind = .newline) ∧ IsForm rest (.node k us))) := by
  generalize hts : pre ++ .node k us :: post = ts at h
  have hmem : .node k us ∈ ts := by simp [← hts]
  -- a leaf is not the node, so it stands before it
  have hfirst : ∀ {t : Token} {vs : List Tree}, ts = .leaf t :: vs →
      ∃ xs, pre = .leaf t :: xs ∧ vs = xs ++ .node k us :: post := by
    intro t vs hvs
    cases pre with
    | nil => cases hts.trans hvs
    | cons u xs =>
      obtain ⟨rfl, rfl⟩ := List.cons.inj (hts.trans hvs)
      exact ⟨xs, rfl, rfl⟩
  cases h with
  | atom => simp at hmem
  | @closed _ o c _ es ho hc hes =>
    obtain ⟨xs, rfl, hes'⟩ := hfirst rfl
    refine ⟨o, xs, rfl, .inl ⟨ho, c, ?_⟩⟩
    rcases List.eq_nil_or_concat' post with rfl | ⟨ys, t, rfl⟩
    · cases (List.append_inj' hes' rfl).2
    · rw [← List.cons_append, ← List.append_assoc] at hes'
      obtain ⟨rfl, hlast⟩ := List.append_inj' hes' rfl
      cases hlast
      exact ⟨ys, rfl, hc, hes⟩
  | @unclosed o _ es ho hes =>
    obtain ⟨xs, rfl, rfl⟩ := hfirst rfl
    exact ⟨o, xs, rfl, .inr (.inl ⟨ho, rfl, hes⟩)⟩
  | @prefixed _ p bs t hp hbs ht =>
    -- the operand is the one node, and it comes last
    obtain ⟨xs, rfl, hxs⟩ := hfirst rfl
    refine ⟨p, xs, rfl, .inr (.inr ⟨hp, rfl, ?_⟩)⟩
    rcases List.eq_nil_or_concat' post with rfl | ⟨post, u, rfl⟩
    · obtain ⟨rfl, hlast⟩ := List.append_inj' hxs rfl
      cases hlast
      exact ⟨rfl, bs, rfl, hbs, ht⟩
    · rw [← List.cons_append, ← List.append_assoc] at hxs
      have hmem : .node k us ∈ bs.map Tree.leaf := by
        rw [(List.append_inj' hxs rfl).1]
        simp
      simp at hmem
  | dangling => simp at hmem

/-- A node in an `IsForm` is a stray closer or an `IsForm`. -/
theorem IsForm.isForm_of_split {rest : List Token} {j k : Kind} {ts us pre post : List Tree}
    (h : IsForm rest (.node j ts)) (hsplit : ts = pre ++ .node k us :: post) :
    (∃ t, us = [.leaf t]) ∧ k = .error ∨ IsForm (rowLeaves post ++ rest) (.node k us) := by
  subst hsplit
  obtain ⟨o, xs, -, hcases⟩ := h.cases_of_split
  rcases hcases with ⟨-, c, ys, rfl, -, hrow⟩ | ⟨-, rfl, hrow⟩ | ⟨-, -, rfl, bs, -, -, hform⟩
  · rw [rowLeaves_append, List.append_assoc]
    exact hrow.isForm_of_split
  · exact hrow.isForm_of_split
  · exact .inr hform

end Grammar

namespace Form

open Grammar

/-! ### Rows of nodes -/

theorem start_le_stop (f : Form) : f.start ≤ f.stop := by
  have hstop := f.stop_eq
  omega

/-- A node of `inRow` lies between the ends of the row. -/
theorem bounds_of_mem_inRow {around : List Site} {start : Nat} {ts : List Tree} {g : Form}
    (hg : g ∈ inRow around start ts) : start ≤ g.start ∧ g.stop ≤ start + rowWidth ts := by
  obtain ⟨x, y, hsplit, hgx⟩ := exists_of_mem_inRow hg
  have hstart : g.start = start + rowWidth x := congrArg (·.start) hgx
  have hstop : g.stop = g.start + rowWidth g.children := g.stop_eq
  have hwidth : rowWidth ts = rowWidth x + (rowWidth g.children + rowWidth y) := by
    rw [hsplit, rowWidth_append, rowWidth, width]
  omega

theorem pairwise_stop_le {around : List Site} : ∀ {ts : List Tree} {start : Nat},
    (inRow around start ts).Pairwise fun f g => f.stop ≤ g.start
  | [], _ => .nil
  | .leaf t :: ts, start => by
    rw [inRow]
    exact pairwise_stop_le
  | .node k cs :: ts, start => by
    rw [inRow]
    refine List.Pairwise.cons ?_ pairwise_stop_le
    intro g hg
    exact (bounds_of_mem_inRow hg).1

theorem mem_nodes_of_mem_forms {f g : Form} (h : g ∈ f.forms) : g ∈ f.nodes :=
  (List.mem_filter.mp h).1

/-- The `forms` of a node follow one another. -/
theorem pairwise_forms (f : Form) : f.forms.Pairwise fun g h => g.stop ≤ h.start :=
  pairwise_stop_le.filter _

/-- One of the `forms` of a node lies in it. -/
theorem bounds_of_mem_forms {f g : Form} (h : g ∈ f.forms) :
    f.start ≤ g.start ∧ g.stop ≤ f.stop := by
  have hstop : f.stop = f.start + rowWidth f.children := f.stop_eq
  rw [hstop]
  exact bounds_of_mem_inRow (mem_nodes_of_mem_forms h)

namespace Placed

variable {d : Document} {root : Tree} {f g : Form}

/-! ### Nodes in the text -/

theorem of_mem_nodes (h : Placed root f) (hg : g ∈ f.nodes) : Placed root g := by
  obtain ⟨x, y, hsplit, hgx⟩ := exists_of_mem_inRow hg
  rw [hgx]
  exact .child h hsplit

theorem of_mem_forms (h : Placed root f) (hg : g ∈ f.forms) : Placed root g :=
  h.of_mem_nodes (mem_nodes_of_mem_forms hg)

/-- A `Placed` node lies in the text. -/
theorem stop_le (h : Placed d.tree f) : f.stop ≤ d.length := by
  obtain ⟨L, R, hleaves, hstart⟩ := h.exists_context
  have hstop : f.stop = f.start + rowWidth f.children := f.stop_eq
  have hwidth : d.length = widthOf L + (rowWidth f.children + widthOf R) := by
    rw [Document.length, ← Token.scan_text d.text, ← d.leaves_tree, hleaves,
      rowWidth_eq_widthOf, ← Token.widthOf_append, ← Token.widthOf_append]
    rfl
  have hstart : f.start = widthOf L := hstart
  omega

/-- The text of a `Placed` node is what the document has between its ends. -/
theorem slice_eq (h : Placed d.tree f) : Text.slice d.text f.start f.stop = f.text := by
  obtain ⟨L, R, hleaves, hstart⟩ := h.exists_context
  have hstop : f.stop = f.start + f.text.length := by
    rw [f.stop_eq, rowWidth_eq]
    rfl
  have htext : d.text = L.flatMap Token.text ++ (f.text ++ R.flatMap Token.text) := by
    rw [← Token.scan_text d.text, ← d.leaves_tree, hleaves, List.flatMap_append,
      List.flatMap_append]
    rfl
  rw [Text.slice, hstop, htext, hstart, ← List.length_append, ← List.append_assoc,
    List.take_left, List.drop_left]

/-- The tokens of a node are `Spelled` as their kinds ask. -/
theorem spelled_of_mem (h : Placed d.tree f) {t : Token} (ht : t ∈ rowLeaves f.children) :
    Token.Spelled t.kind t.text := by
  obtain ⟨L, R, hleaves, -⟩ := h.exists_context
  have hmem : t ∈ scan d.text := by
    rw [← d.leaves_tree, hleaves]
    exact List.mem_append_right _ (List.mem_append_left _ ht)
  exact Token.spelled_of_mem_scan hmem

/-- A node is the document, a stray closer, or an `IsForm` before what follows it. -/
theorem isForm (h : Placed d.tree f) :
    (f.kind = .root ∧ f.stop = d.length ∧ IsRow none [] f.children) ∨
      ((∃ t, f.children = [.leaf t]) ∧ f.kind = .error) ∨
      ∃ rest, f.stop + widthOf rest = d.length ∧ IsForm rest (.node f.kind f.children) := by
  obtain ⟨ts, htree, hrow⟩ := d.exists_row
  have hlength : rowWidth ts = d.length := by
    rw [rowWidth_eq_widthOf, Document.length, ← Token.widthOf_scan, ← d.leaves_tree, htree]
    rfl
  rw [htree] at h
  induction h with
  | root hroot =>
    cases hroot
    refine .inl ⟨rfl, ?_, hrow⟩
    show 0 + rowWidth ts = d.length
    omega
  | @child p k us pre post _ hsplit ih =>
    -- what follows the node is what follows it in its row and what follows the row
    have hstop : p.stop = p.start + rowWidth pre + rowWidth us + widthOf (rowLeaves post) := by
      rw [p.stop_eq, hsplit, rowWidth_append, rowWidth, width, ← rowWidth_eq_widthOf]
      omega
    have hafter : ∀ {rest : List Token}, p.stop + widthOf rest = d.length →
        (ofNode k (p.start + rowWidth pre) us (p.toSite :: p.around)).stop +
          widthOf (rowLeaves post ++ rest) = d.length := by
      intro rest hrest
      show p.start + rowWidth pre + rowWidth us + _ = _
      rw [Token.widthOf_append]
      omega
    refine .inr ?_
    rcases ih with ⟨-, hp, hrow⟩ | ⟨⟨t, hp⟩, -⟩ | ⟨rest, hp, hform⟩
    · rw [hsplit] at hrow
      have hp : p.stop + widthOf [] = d.length := hp
      exact hrow.isForm_of_split.imp id fun h => ⟨_, hafter hp, h⟩
    · rw [hp] at hsplit
      cases pre <;> simp at hsplit
    · exact (hform.isForm_of_split hsplit).imp id fun h => ⟨_, hafter hp, h⟩

/-- What counts as a form by `Kind.isForm` is an `IsForm` before what follows it. -/
theorem exists_isForm (h : Placed d.tree f) (hk : f.kind.isForm) :
    ∃ rest, f.stop + widthOf rest = d.length ∧ IsForm rest (.node f.kind f.children) := by
  rcases h.isForm with ⟨hroot, -⟩ | ⟨-, herror⟩ | hform
  · rw [hroot] at hk
    cases hk
  · rw [herror] at hk
    cases hk
  · exact hform

/-- Climbing out of prefixes, to `outermost`, leads to a node that starts no later. -/
theorem outermost_start_le (h : Placed root f) :
    Placed root f.outermost ∧ f.outermost.start ≤ f.start := by
  induction h with
  | root hroot => exact ⟨.root hroot, Nat.le_refl _⟩
  | @child p k us pre post hp hsplit ih =>
    by_cases hk : p.kind = .prefixed
    · have hclimb : (ofNode k (p.start + rowWidth pre) us (p.toSite :: p.around)).outermost =
          p.outermost := if_pos hk
      have hstart : (ofNode k (p.start + rowWidth pre) us (p.toSite :: p.around)).start =
          p.start + rowWidth pre := rfl
      rw [hclimb, hstart]
      exact ⟨ih.1, by omega⟩
    · have hstay : (ofNode k (p.start + rowWidth pre) us (p.toSite :: p.around)).outermost =
          ofNode k (p.start + rowWidth pre) us (p.toSite :: p.around) := if_neg hk
      rw [hstay]
      exact ⟨.child hp hsplit, Nat.le_refl _⟩

theorem of_container? (h : Placed root f) (hg : f.container? = some g) : Placed root g := by
  obtain ⟨hout, -⟩ := h.outermost_start_le
  have hne : f.outermost.around ≠ [] := by
    intro hnil
    rw [container?, parent?, hnil] at hg
    cases hg
  obtain ⟨p, hparent, hp, -⟩ := hout.exists_parent hne
  obtain rfl := Option.some.inj (hg.symm.trans hparent)
  exact hp

mutual

theorem of_collectionOf? : ∀ {t : Tree} {around : List Site} {start : Nat},
    (∀ k ts, t = .node k ts → Placed root (ofNode k start ts around)) →
      collectionOf? around start t = some g → Placed root g ∧ g.isCollection
  | .leaf _, _, _, _, h => by cases h
  | .node k ts, around, start, hnode, h => by
    rw [collectionOf?] at h
    split at h
    · rename_i hk
      obtain rfl := Option.some.inj h
      exact ⟨hnode k ts rfl, hk⟩
    · split at h
      · have hsplit : (ofNode k start ts around).children = [] ++ ts := rfl
        exact of_operandOf? (hnode k ts rfl) hsplit h
      · cases h

theorem of_operandOf? : ∀ {ts : List Tree} {p : Form}, Placed root p → ∀ {pre : List Tree},
    p.children = pre ++ ts →
      operandOf? (p.toSite :: p.around) (p.start + rowWidth pre) ts = some g →
      Placed root g ∧ g.isCollection
  | [], _, _, _, _, h => by cases h
  | .leaf t :: ts, p, hp, pre, hsplit, h => by
    have hsplit' : p.children = (pre ++ [.leaf t]) ++ ts := by simp [hsplit]
    refine of_operandOf? hp hsplit' ?_
    rw [operandOf?] at h
    rw [rowWidth_append, rowWidth, rowWidth, width, Nat.add_zero, ← Nat.add_assoc]
    exact h
  | .node k us :: ts, p, hp, pre, hsplit, h => by
    rw [operandOf?] at h
    split at h
    · refine of_collectionOf? ?_ h
      intro j vs heq
      cases heq
      exact .child hp hsplit
    · have hsplit' : p.children = (pre ++ [.node k us]) ++ ts := by simp [hsplit]
      refine of_operandOf? hp hsplit' ?_
      rw [rowWidth_append, rowWidth, rowWidth, width, Nat.add_zero, ← Nat.add_assoc]
      exact h

end

/-- What `asCollection?` leads to is a collection of the tree. -/
theorem of_asCollection? (h : Placed root f) (hg : f.asCollection? = some g) :
    Placed root g ∧ g.isCollection := by
  refine of_collectionOf? ?_ hg
  intro k ts heq
  cases heq
  cases h with
  | root hroot => exact .root hroot
  | child hp hsplit => exact .child hp hsplit

/-- The `next?` form starts after this one and the prefixes on it. -/
theorem of_next? (h : Placed root f) (hg : f.next? = some g) : Placed root g ∧ 0 < g.start := by
  obtain ⟨c, hc, hfind⟩ := Option.bind_eq_some_iff.mp hg
  have hlt := List.find?_some hfind
  rw [decide_eq_true_eq] at hlt
  exact ⟨(h.of_container? hc).of_mem_forms (List.mem_of_find?_eq_some hfind), by omega⟩

/-- The `prev?` form starts before this one and the prefixes on it. -/
theorem of_prev? (h : Placed root f) (hg : f.prev? = some g) :
    Placed root g ∧ g.start < f.start := by
  obtain ⟨c, hc, hlast⟩ := Option.bind_eq_some_iff.mp hg
  obtain ⟨hmem, hlt⟩ := List.mem_filter.mp (List.mem_of_getLast? hlast)
  rw [decide_eq_true_eq] at hlt
  have hle := h.outermost_start_le.2
  exact ⟨(h.of_container? hc).of_mem_forms hmem, by omega⟩

end Placed

/-! ### Collections -/

/-- The delimiters of a collection are one character each, around its interior, from `innerStart` to
`innerStop`. -/
structure Framed (f : Form) : Prop where
  opening_length : f.opening.length = 1
  closing_length : f.closing.length = 1
  start_lt : f.start + 1 ≤ f.stop
  closed_lt : f.isClosed → f.start + 2 ≤ f.stop
  forms_inside : ∀ g ∈ f.forms, f.start + 1 ≤ g.start ∧ (f.isClosed → g.stop + 1 ≤ f.stop)

namespace Framed

variable {f g : Form} (h : f.Framed)
include h

theorem innerStart_eq : f.innerStart = f.start + 1 := by
  rw [innerStart, h.opening_length]

theorem innerStop_of_isClosed (hclosed : f.isClosed) : f.innerStop + 1 = f.stop := by
  have hlt := h.closed_lt hclosed
  rw [innerStop, if_pos hclosed, h.closing_length]
  omega

/-- The interior lies between the ends of the collection. -/
theorem inner_bounds : f.start + 1 ≤ f.innerStop ∧ f.innerStop ≤ f.stop := by
  have hlt := h.start_lt
  by_cases hclosed : f.isClosed
  · have hstop := h.innerStop_of_isClosed hclosed
    have hlt := h.closed_lt hclosed
    omega
  · rw [innerStop, if_neg hclosed]
    omega

/-- A form of a collection lies in its interior, between the opener and `innerStop`. -/
theorem bounds_of_mem (hg : g ∈ f.forms) :
    f.start + 1 ≤ g.start ∧ g.start ≤ g.stop ∧ g.stop ≤ f.innerStop := by
  obtain ⟨hstart, hclosed⟩ := h.forms_inside g hg
  refine ⟨hstart, g.start_le_stop, ?_⟩
  by_cases hc : f.isClosed
  · have hstop := h.innerStop_of_isClosed hc
    have hle := hclosed hc
    omega
  · rw [innerStop, if_neg hc]
    exact (bounds_of_mem_forms hg).2

theorem bounds_of_holds {offset : Nat} (ho : f.holds offset) :
    f.start + 1 ≤ offset ∧ offset ≤ f.innerStop := by
  rw [holds, Bool.and_eq_true, decide_eq_true_eq, decide_eq_true_eq, h.innerStart_eq] at ho
  exact ho

end Framed

theorem length_delimiters {k : Kind} (h : k.isCollection) :
    k.opening.length = 1 ∧ k.closing.length = 1 := by
  cases k <;> cases h <;> exact ⟨rfl, rfl⟩

/-- A collection has its opener first.  When it is closed it has its closer last; when it is not, it
ends with the text, and has no delimiter of its own but the opener. -/
theorem Placed.exists_delimiters {d : Document} {f : Form} (h : Placed d.tree f)
    (hk : f.isCollection) :
    ∃ o es, f.children = .leaf o :: es ∧ o.kind.collection? = some f.kind ∧ o.text.length = 1 ∧
      ((f.isClosed ∧ ∃ xs c, es = xs ++ [.leaf c] ∧ f.kind.ending? = some c.kind ∧
          c.text.length = 1) ∨
        (¬f.isClosed ∧ f.stop = d.length ∧ ∀ t, .leaf t ∈ es → t.kind.isTrivia)) := by
  have hlengths := length_delimiters hk
  have hspelled : ∀ {t : Token}, .leaf t ∈ f.children → Token.Spelled t.kind t.text := by
    intro t ht
    obtain ⟨x, y, hsplit⟩ := List.append_of_mem ht
    refine h.spelled_of_mem ?_
    rw [hsplit, rowLeaves_append, rowLeaves, leaves]
    simp
  have hclosed : f.isClosed = (ofNode f.kind 0 f.children []).isClosed := rfl
  obtain ⟨rest, hrest, hform⟩ := h.exists_isForm (Kind.isForm_of_isCollection hk)
  rw [hclosed]
  rw [isCollection] at hk
  generalize hkind : f.kind = k at hform hk hlengths
  generalize hchildren : f.children = ts at hform hspelled
  cases hform with
  | atom => cases hk
  | @closed _ o c k es ho hc hes =>
    refine ⟨o, es ++ [.leaf c], rfl, ho, ?_, .inl ⟨isClosed_ofNode ho hc, es, c, rfl, hc, ?_⟩⟩
    · rw [(hspelled (by simp)).text_opener ho, hlengths.1]
    · rw [(hspelled (by simp)).text_closer hc, hlengths.2]
  | @unclosed o k es ho hes =>
    refine ⟨o, es, rfl, ho, ?_, .inr ⟨hes.not_isClosed ho, hrest, fun t ht => ?_⟩⟩
    · rw [(hspelled (by simp)).text_opener ho, hlengths.1]
    · exact hes.isTrivia_of_leaf_mem ht
  | prefixed => cases hk
  | dangling => cases hk

/-- **The delimiters of a collection are around its interior**: it is `Framed`. -/
theorem Placed.framed {d : Document} {f : Form} (h : Placed d.tree f) (hk : f.isCollection) :
    f.Framed := by
  obtain ⟨o, es, hchildren, -, ho, hends⟩ := h.exists_delimiters hk
  have hclosed : f.isClosed → ∃ xs c, es = xs ++ [.leaf c] ∧ c.text.length = 1 := by
    intro hc
    rcases hends with ⟨-, xs, c, hes, -, hlength⟩ | ⟨hopen, -⟩
    · exact ⟨xs, c, hes, hlength⟩
    · exact absurd hc hopen
  have hstop : f.stop = f.start + rowWidth f.children := f.stop_eq
  have hwidth : rowWidth f.children = 1 + rowWidth es := by
    rw [hchildren, rowWidth, width, ho]
  have hnodes : f.nodes = inRow (f.toSite :: f.around) (f.start + 1) es := by
    rw [nodes, hchildren, inRow, ho]
  refine ⟨(length_delimiters hk).1, (length_delimiters hk).2, by omega, ?_, ?_⟩
  · intro hc
    obtain ⟨xs, c, rfl, hlength⟩ := hclosed hc
    rw [rowWidth_append, rowWidth, rowWidth, width, hlength] at hwidth
    omega
  · intro g hg
    have hmem := mem_nodes_of_mem_forms hg
    rw [hnodes] at hmem
    refine ⟨(bounds_of_mem_inRow hmem).1, fun hc => ?_⟩
    -- the closer is no node, so the forms are in the row before it
    obtain ⟨xs, c, rfl, hlength⟩ := hclosed hc
    rw [inRow_append, inRow, inRow, List.append_nil] at hmem
    have hle := (bounds_of_mem_inRow hmem).2
    rw [rowWidth_append, rowWidth, rowWidth, width, hlength] at hwidth
    omega

end Form

namespace Document

open Form (Placed)

variable {d : Document} {f : Form} {offset : Nat}

/-- A token lies in the text. -/
theorem stop_le_of_leaf {l : Leaf} (h : l ∈ d.leaves) : l.stop ≤ d.length := by
  obtain ⟨ts, us, hscan, hstart⟩ := exists_split_of_mem h
  have hwidth : d.length = widthOf ts + (l.token.text.length + widthOf us) := by
    rw [length, ← Token.scan_text d.text, hscan, ← Token.widthOf_cons, ← Token.widthOf_append]
    rfl
  rw [Leaf.stop, hstart]
  omega

theorem placed_of_mem_nodes (h : f ∈ d.nodes) : Placed d.tree f := by
  rw [d.nodes_eq] at h
  exact Form.placed_of_mem_within h

theorem placed_root : Placed d.tree d.root := by
  obtain ⟨ts, htree, -⟩ := d.exists_row
  rw [root, htree]
  exact .root rfl

/-- The `innermost?` collection at an offset is `Framed` and has the offset in its interior. -/
theorem framed_of_innermost? (h : d.innermost? offset = some f) :
    Placed d.tree f ∧ f.Framed ∧ f.start + 1 ≤ offset ∧ offset ≤ f.innerStop := by
  obtain ⟨hmem, hholds⟩ := List.mem_filter.mp (List.mem_of_getLast? h)
  rw [Bool.and_eq_true] at hholds
  have hplaced := placed_of_mem_nodes hmem
  have hframed := hplaced.framed hholds.1
  exact ⟨hplaced, hframed, hframed.bounds_of_holds hholds.2⟩

theorem placed_container : Placed d.tree (d.container offset) := by
  rw [container]
  cases hlist : d.innermost? offset with
  | none => exact placed_root
  | some list => exact (framed_of_innermost? hlist).1

theorem placed_of_mem_container (h : f ∈ (d.container offset).forms) : Placed d.tree f :=
  placed_container.of_mem_forms h

/-- The forms of a `container` lie in the text. -/
theorem stop_le_of_mem_container (h : f ∈ (d.container offset).forms) : f.stop ≤ d.length :=
  (placed_of_mem_container h).stop_le

/-- The `target` of a motion stays in the text. -/
theorem ends_target_le (m : Motion) (h : offset ≤ d.length) :
    ((m.target d offset).ends offset).1 ≤ d.length ∧
      ((m.target d offset).ends offset).2 ≤ d.length := by
  have hpoint : ∀ {n : Nat}, n ≤ d.length → ((Destination.point n).ends offset).1 ≤ d.length ∧
      ((Destination.point n).ends offset).2 ≤ d.length := fun hn => ⟨h, hn⟩
  cases m with
  | topLevel =>
    rw [Motion.target]
    split
    · rename_i f hf
      have hstop := (placed_root.of_mem_forms (List.mem_of_find?_eq_some hf)).stop_le
      have hstart := f.start_le_stop
      exact ⟨hstart.trans hstop, hstop⟩
    · exact hpoint h
  | forward =>
    rw [Motion.target]
    split
    · rename_i f hf
      exact hpoint (stop_le_of_mem_container (List.mem_of_find?_eq_some hf))
    · exact hpoint h
  | backward =>
    rw [Motion.target]
    split
    · rename_i f hf
      have hstop := stop_le_of_mem_container (List.mem_filter.mp (List.mem_of_getLast? hf)).1
      exact hpoint (f.start_le_stop.trans hstop)
    · exact hpoint h
  | down =>
    rw [Motion.target]
    split
    · rename_i f hf
      obtain ⟨g, hg, hlist⟩ := List.exists_of_findSome?_eq_some hf
      obtain ⟨hplaced, hk⟩ :=
        (placed_of_mem_container (List.mem_filter.mp hg).1).of_asCollection? hlist
      have hframed := hplaced.framed hk
      have hlt := hframed.start_lt
      rw [hframed.innerStart_eq]
      exact hpoint (hlt.trans hplaced.stop_le)
    · exact hpoint h
  | up =>
    rw [Motion.target]
    split
    · rename_i f hf
      have hstop := (framed_of_innermost? hf).1.stop_le
      exact hpoint (f.start_le_stop.trans hstop)
    · exact hpoint h
  | out =>
    rw [Motion.target]
    split
    · rename_i f hf
      exact hpoint (framed_of_innermost? hf).1.stop_le
    · exact hpoint h

end Document

end SexpEdit
