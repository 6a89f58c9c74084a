/-
Moving along and across the tree.

A motion starts over from a bare offset each time: it looks for the innermost container there and
then for a form in it.  Repeated, it still keeps to one row, or to one chain of collections.  Forward
and backward motions take the forms of a container one by one and stop at its ends, and the motion up
takes the collections around an offset one by one, from the innermost to the outermost.

* `Motion.Traverses` — the offsets that a repeated motion leads to;
* `Form.Divides` — an offset between two forms of a row;
* `Document.forward_backward_rows` — forward and backward motions undo each other at the edges of a
  form, and go through the rows of a document;
* `Document.up_down_levels` — motions up and down pass from one level to the next.
-/
import SexpEdit.Proofs.Edges

namespace SexpEdit

open Form (Placed)

/-! ### Repeated motions -/

/-- Repeated from an offset, a motion leads to each of the offsets in turn, each time to another one,
and from the last of them to itself. -/
inductive Motion.Traverses (d : Document) (m : Motion) : Nat → List Nat → Prop
  | stay {offset : Nat} : m.target d offset = .point offset → m.Traverses d offset []
  | move {offset next : Nat} {rest : List Nat} : m.target d offset = .point next → next ≠ offset →
      m.Traverses d next rest → m.Traverses d offset (next :: rest)

namespace Form

/-! ### Offsets between forms -/

/-- The offset is behind the forms `xs` of a row and before the others, `ys`. -/
structure Divides (c : Form) (offset : Nat) (xs ys : List Form) : Prop where
  forms_eq : c.forms = xs ++ ys
  behind : ∀ f ∈ xs, f.stop ≤ offset
  before : ∀ f ∈ ys, offset ≤ f.start

namespace Divides

variable {d : Document} {c f : Form} {offset : Nat} {xs ys : List Form}

/-- A form `Divides` its row at its first edge. -/
theorem at_start (h : c.forms = xs ++ f :: ys) : c.Divides f.start xs (f :: ys) := by
  have hpairwise := c.pairwise_forms
  rw [h] at hpairwise
  obtain ⟨-, hbehind, hacross⟩ := List.pairwise_append.mp hpairwise
  refine ⟨h, ?_, ?_⟩
  · intro g hg
    exact hacross g hg f List.mem_cons_self
  · intro g hg
    rcases List.mem_cons.mp hg with rfl | hg
    · exact Nat.le_refl _
    · have hle := (List.pairwise_cons.mp hbehind).1 g hg
      have hlt := f.start_le_stop
      omega

/-- A form `Divides` its row at its last edge. -/
theorem at_stop (h : c.forms = xs ++ f :: ys) : c.Divides f.stop (xs ++ [f]) ys := by
  have hpairwise := c.pairwise_forms
  rw [h] at hpairwise
  obtain ⟨-, hbehind, hacross⟩ := List.pairwise_append.mp hpairwise
  refine ⟨by rw [h, List.append_assoc]; rfl, ?_, (List.pairwise_cons.mp hbehind).1⟩
  intro g hg
  rcases List.mem_append.mp hg with hg | hg
  · have hle := hacross g hg f List.mem_cons_self
    have hlt := f.start_le_stop
    omega
  · obtain rfl := List.mem_singleton.mp hg
    exact Nat.le_refl _

theorem find?_behind (h : c.Divides offset xs ys) :
    xs.find? (fun g => offset < g.stop) = none := by
  refine List.find?_eq_none.mpr fun g hg hlt => ?_
  have hle := h.behind g hg
  rw [decide_eq_true_eq] at hlt
  omega

theorem filter_before (h : c.Divides offset xs ys) :
    ys.filter (fun g => g.start < offset) = [] := by
  refine List.filter_eq_nil_iff.mpr fun g hg hlt => ?_
  have hle := h.before g hg
  rw [decide_eq_true_eq] at hlt
  omega

/-- Forward, the motion goes to the end of the next form. -/
theorem forward (h : c.Divides offset xs (f :: ys)) (hc : d.container offset = c)
    (hlt : f.start < f.stop) : Motion.forward.target d offset = .point f.stop := by
  have hself : offset < f.stop := by
    have hle := h.before f List.mem_cons_self
    omega
  have hfind : c.forms.find? (fun g => offset < g.stop) = some f := by
    rw [h.forms_eq, List.find?_append, h.find?_behind, Option.none_or]
    exact List.find?_cons_of_pos (decide_eq_true hself)
  rw [Motion.target, hc, hfind]

theorem forward_end (h : c.Divides offset xs []) (hc : d.container offset = c) :
    Motion.forward.target d offset = .point offset := by
  rw [Motion.target, hc, h.forms_eq, List.append_nil, h.find?_behind]

/-- Backward, the motion goes to the start of the form before. -/
theorem backward (h : c.Divides offset (xs ++ [f]) ys) (hc : d.container offset = c)
    (hlt : f.start < f.stop) : Motion.backward.target d offset = .point f.start := by
  have hself : f.start < offset := by
    have hle := h.behind f (List.mem_append_right _ (List.mem_singleton_self f))
    omega
  have hone : [f].filter (fun g => g.start < offset) = [f] :=
    List.filter_cons_of_pos (decide_eq_true hself)
  rw [Motion.target, hc, h.forms_eq, List.filter_append, h.filter_before, List.append_nil,
    List.filter_append, hone, List.getLast?_concat]

theorem backward_end (h : c.Divides offset [] ys) (hc : d.container offset = c) :
    Motion.backward.target d offset = .point offset := by
  rw [Motion.target, hc, h.forms_eq, List.nil_append, h.filter_before]
  rfl

end Divides

end Form

namespace Document

variable {d : Document} {c f : Form} {offset : Nat}

/-! ### Along a row -/

/-- Repeated forward motions, as in `Traverses`, go through the forms of a row that come after the
offset. -/
theorem IsContainer.traverses_forward (h : d.IsContainer c)
    (hclosed : ∀ g ∈ d.nodes, g.isCollection → g.isClosed) : ∀ {ys xs : List Form} {offset : Nat},
    c.Divides offset xs ys → d.container offset = c →
      Motion.forward.Traverses d offset (ys.map (·.stop)) := by
  -- on the forms to come: each step takes the first of them
  intro ys
  induction ys with
  | nil =>
    intro xs offset hdivides hc
    exact .stay (hdivides.forward_end hc)
  | cons f ys ih =>
    intro xs offset hdivides hc
    have hf : f ∈ c.forms := by
      rw [hdivides.forms_eq]
      exact List.mem_append_right _ List.mem_cons_self
    have hplaced := h.placed.of_mem_forms hf
    have hlt := hplaced.start_lt_stop (List.mem_filter.mp hf).2
    have hle := hdivides.before f List.mem_cons_self
    refine .move (hdivides.forward hc hlt) (Nat.lt_of_le_of_lt hle hlt).ne' ?_
    exact ih (.at_stop hdivides.forms_eq)
      (h.container_stop hf fun g hg => hclosed g (hplaced.mem_nodes_of_mem_cons hg))

/-- Repeated backward motions, as in `Traverses`, go through the forms of a row that come before the
offset, the last first. -/
theorem IsContainer.traverses_backward (h : d.IsContainer c) : ∀ {zs ys : List Form} {offset : Nat},
    c.Divides offset zs.reverse ys → d.container offset = c →
      Motion.backward.Traverses d offset (zs.map (·.start)) := by
  intro zs
  induction zs with
  | nil =>
    intro ys offset hdivides hc
    exact .stay (hdivides.backward_end hc)
  | cons f zs ih =>
    intro ys offset hdivides hc
    rw [List.reverse_cons] at hdivides
    have hsplit : c.forms = zs.reverse ++ f :: ys := by
      rw [hdivides.forms_eq, List.append_assoc]
      rfl
    have hf : f ∈ c.forms := by
      rw [hsplit]
      exact List.mem_append_right _ List.mem_cons_self
    have hlt := (h.placed.of_mem_forms hf).start_lt_stop (List.mem_filter.mp hf).2
    have hle := hdivides.behind f (List.mem_append_right _ (List.mem_singleton_self f))
    refine .move (hdivides.backward hc hlt) (Nat.lt_of_lt_of_le hlt hle).ne ?_
    exact ih (.at_start hsplit) (h.container_start hf)

/-- The forms of a container start and end one after another. -/
theorem IsContainer.pairwise_edges (h : d.IsContainer c) :
    (c.forms.map (·.stop)).Pairwise (· < ·) ∧ (c.forms.map (·.start)).Pairwise (· < ·) := by
  have hlt : ∀ f ∈ c.forms, f.start < f.stop := fun f hf =>
    (h.placed.of_mem_forms hf).start_lt_stop (List.mem_filter.mp hf).2
  rw [List.pairwise_map, List.pairwise_map]
  refine ⟨c.pairwise_forms.imp_of_mem ?_, c.pairwise_forms.imp_of_mem ?_⟩
  · intro f g _ hg hle
    exact Nat.lt_of_le_of_lt hle (hlt g hg)
  · intro f g hf _ hle
    exact Nat.lt_of_lt_of_le (hlt f hf) hle

/-- **Forward and backward motions go through rows.**  From the start of a form in a container the
motion forward leads to its end, and from its end the motion backward leads to its start, when every
collection in the form is closed.  In a document where every collection is closed, repeated motions
forward from the start of a container's interior lead to the ends of its forms, in the order of the
text and once each, and then stay; repeated motions backward from the end of the interior lead to the
starts of the forms in the reverse order, and then stay. -/
theorem forward_backward_rows (hc : d.IsContainer c) :
    (∀ f ∈ c.forms, Motion.forward.target d f.start = .point f.stop ∧
      ((∀ g ∈ f :: f.inside, g.isCollection → g.isClosed) →
        Motion.backward.target d f.stop = .point f.start)) ∧
    (c.forms.map (·.stop)).Pairwise (· < ·) ∧ (c.forms.map (·.start)).Pairwise (· < ·) ∧
    ((∀ g ∈ d.nodes, g.isCollection → g.isClosed) →
      Motion.forward.Traverses d c.innerStart (c.forms.map (·.stop)) ∧
      Motion.backward.Traverses d c.innerStop (c.forms.reverse.map (·.start))) := by
  obtain ⟨hstops, hstarts⟩ := hc.pairwise_edges
  refine ⟨?_, hstops, hstarts, ?_⟩
  · intro f hf
    have hlt := (hc.placed.of_mem_forms hf).start_lt_stop (List.mem_filter.mp hf).2
    obtain ⟨xs, ys, hsplit⟩ := List.append_of_mem hf
    refine ⟨(Form.Divides.at_start hsplit).forward (hc.container_start hf) hlt, ?_⟩
    intro hclosed
    exact (Form.Divides.at_stop hsplit).backward (hc.container_stop hf hclosed) hlt
  · intro hclosed
    have hfirst : c.Divides c.innerStart [] c.forms :=
      ⟨rfl, by simp, fun f hf => (hc.bounds_of_mem hf).1⟩
    have hlast : c.Divides c.innerStop c.forms.reverse.reverse [] := by
      rw [List.reverse_reverse]
      exact ⟨(List.append_nil _).symm, fun f hf => (hc.bounds_of_mem hf).2, by simp⟩
    exact ⟨hc.traverses_forward hclosed hfirst hc.container_innerStart,
      hc.traverses_backward hlast (hc.container_innerStop hclosed)⟩

/-- In a list that has an atom, a quoted list and a vector right behind that, the motion stops at the
edge that the two share and enters neither. -/
theorem forward_backward_rows_adjacent :
    let d := ofText "(a '(b)[c]) d".toList
    let c := d.container 1
    (∀ g ∈ d.nodes, g.isCollection → g.isClosed) ∧
    c.innerStart = 1 ∧ c.innerStop = 10 ∧
    Motion.forward.Traverses d 1 [2, 7, 10] ∧ Motion.backward.Traverses d 10 [7, 3, 1] := by
  intro d c
  have hc : d.IsContainer c := isContainer_container d 1
  have hclosed : ∀ g ∈ d.nodes, g.isCollection → g.isClosed := by decide +kernel
  have hfirst : c.innerStart = 1 := by decide +kernel
  have hlast : c.innerStop = 10 := by decide +kernel
  have hstops : c.forms.map (·.stop) = [2, 7, 10] := by decide +kernel
  have hstarts : c.forms.reverse.map (·.start) = [7, 3, 1] := by decide +kernel
  have htraverses := (forward_backward_rows hc).2.2.2 hclosed
  rw [hfirst, hstops, hlast, hstarts] at htraverses
  exact ⟨hclosed, hfirst, hlast, htraverses⟩

/-! ### Across levels -/

/-- The collections whose interior `holds` the offset, from the last to start to the first. -/
def holders (d : Document) (offset : Nat) : List Form :=
  (d.nodes.filter fun f => f.isCollection && f.holds offset).reverse

theorem head?_holders : (d.holders offset).head? = d.innermost? offset := by
  rw [holders, List.head?_reverse]
  rfl

/-- Of two collections that hold an offset, by `holds`, neither ends before the other starts. -/
theorem start_lt_of_holds {g : Form} (hf : f ∈ d.nodes) (hg : g ∈ d.nodes) (hfk : f.isCollection)
    (hgk : g.isCollection) (hfh : f.holds offset) (hgh : g.holds offset) : g.start < f.stop := by
  have hframed := (placed_of_mem_nodes hf).framed hfk
  have hbounds := hframed.bounds_of_holds hfh
  have hinner := hframed.inner_bounds
  have hgbounds := ((placed_of_mem_nodes hg).framed hgk).bounds_of_holds hgh
  omega

/-- The `holders` of an offset are nested, each in the next. -/
theorem pairwise_holders (d : Document) (offset : Nat) :
    (d.holders offset).Pairwise fun f g => f ∈ g.inside := by
  have hpairwise := Form.pairwise_within d.tree [] 0
  rw [← d.nodes_eq] at hpairwise
  rw [holders, List.pairwise_reverse]
  refine (hpairwise.filter _).imp_of_mem ?_
  intro f g hf hg hor
  rw [List.mem_filter, Bool.and_eq_true] at hf hg
  rcases hor with hin | happ
  · exact hin
  · have hlt := start_lt_of_holds hf.1 hg.1 hf.2.1 hg.2.1 hf.2.2 hg.2.2
    omega

/-- The nodes in preorder: those before a node are around it or end before it, and those after it are
inside it or start behind it. -/
theorem exists_preorder (hf : f ∈ d.nodes) : ∃ xs ys, d.nodes = xs ++ f :: (f.inside ++ ys) ∧
    (∀ g ∈ xs, f ∈ g.inside ∨ g.stop ≤ f.start) ∧ ∀ g ∈ ys, f.stop ≤ g.start := by
  obtain ⟨xs, ys, hsplit, hafter⟩ := (placed_of_mem_nodes hf).nodes_split
  have hpairwise := Form.pairwise_within d.tree [] 0
  rw [hsplit] at hpairwise
  refine ⟨xs, ys, d.nodes_eq.trans hsplit, ?_, hafter⟩
  intro g hg
  exact (List.pairwise_append.mp hpairwise).2.2 g hg f List.mem_cons_self

/-- A collection that starts at an offset or behind it is not one that `holds` the offset. -/
theorem not_holds_of_le (hf : f ∈ d.nodes) (hk : f.isCollection) (hle : offset ≤ f.start) :
    ¬f.holds offset := by
  intro hholds
  have hbounds := ((placed_of_mem_nodes hf).framed hk).bounds_of_holds hholds
  omega

/-- **One level up.** The `holders` of an offset are the innermost of them and the holders of the
start of that one. -/
theorem holders_eq_cons (h : d.innermost? offset = some f) :
    d.holders offset = f :: d.holders f.start := by
  obtain ⟨hnode, hk, hholds, hinside⟩ := innermost?_eq_some h
  obtain ⟨xs, ys, hsplit, hbefore, hafter⟩ := exists_preorder hnode
  have hmem : ∀ {g : Form}, g ∈ xs ++ f :: (f.inside ++ ys) → g ∈ d.nodes := by
    intro g hg
    rw [hsplit]
    exact hg
  -- what comes after the collection in preorder holds neither offset
  have hoffset : ∀ g ∈ f.inside ++ ys, g.isCollection → ¬g.holds offset := by
    intro g hg hgk hgh
    rcases List.mem_append.mp hg with hin | hout
    · exact hinside g hin hgk hgh
    · have hgnode := hmem (List.mem_append_right _ (List.mem_cons_of_mem _ hg))
      have hlt := start_lt_of_holds hnode hgnode hk hgk hholds hgh
      exact absurd (hafter g hout) (Nat.not_le.mpr hlt)
  have hstart : ∀ g ∈ f :: (f.inside ++ ys), g.isCollection → ¬g.holds f.start := by
    intro g hg hgk
    refine not_holds_of_le (hmem (List.mem_append_right _ hg)) hgk ?_
    rcases List.mem_cons.mp hg with rfl | hg
    · exact Nat.le_refl _
    · rcases List.mem_append.mp hg with hin | hout
      · exact (Form.bounds_of_mem_inside hin).1
      · exact f.start_le_stop.trans (hafter g hout)
  -- what comes before it holds both, with the collection inside, or neither
  have hboth : ∀ g ∈ xs, g.isCollection → (g.holds offset ↔ g.holds f.start) := by
    intro g hg hgk
    have hgnode := hmem (List.mem_append_left _ hg)
    have hform : f ∈ d.forms := mem_forms_iff.mpr ⟨hnode, Kind.isForm_of_isCollection hk⟩
    rw [holds_start_iff hform hgnode hgk]
    constructor
    · intro hgh
      rcases hbefore g hg with hin | happ
      · exact hin
      · have hlt := start_lt_of_holds hgnode hnode hgk hk hgh hholds
        exact absurd happ (Nat.not_le.mpr hlt)
    · intro hin
      exact (placed_of_mem_nodes hgnode).holds_of_mem_inside hgk hin hk hholds
  have hself : (f.isCollection && f.holds offset) = true := by
    rw [hk, hholds]
    rfl
  have htail : (f :: (f.inside ++ ys)).filter (fun g => g.isCollection && g.holds offset) = [f] := by
    rw [List.filter_cons, if_pos hself, filter_holds_eq_nil hoffset]
  rw [holders, holders, hsplit, List.filter_append, List.filter_append, htail,
    filter_holds_eq_nil hstart, filter_holds_congr hboth, List.append_nil, List.reverse_append]
  rfl

/-- Repeated motions up lead to the starts of the `holders` of the offset. -/
theorem traverses_up (d : Document) : ∀ {fs : List Form} {offset : Nat}, d.holders offset = fs →
    Motion.up.Traverses d offset (fs.map (·.start)) := by
  -- on the collections still to leave
  intro fs
  induction fs with
  | nil =>
    intro offset h
    have hnone : d.innermost? offset = none := by rw [← head?_holders, h]; rfl
    refine .stay ?_
    rw [Motion.target, hnone]
  | cons f fs ih =>
    intro offset h
    have hsome : d.innermost? offset = some f := by rw [← head?_holders, h]; rfl
    have hrest : d.holders f.start = fs := by
      rw [holders_eq_cons hsome] at h
      exact (List.cons.inj h).2
    have hbounds := (framed_of_innermost? hsome).2.2
    refine .move ?_ ?_ (ih hrest)
    · rw [Motion.target, hsome]
    · show f.start ≠ offset
      omega

/-- A motion down that moves enters the collection that a form of the row leads to by
`asCollection?`. -/
theorem exists_of_down {r : Nat} (h : Motion.down.target d offset = .point r) (hne : r ≠ offset) :
    ∃ f ∈ (d.container offset).forms, offset ≤ f.start ∧
      ∃ g, f.asCollection? = some g ∧ r = g.innerStart := by
  rw [Motion.target] at h
  split at h
  · rename_i g hfind
    obtain ⟨f, hf, hg⟩ := List.exists_of_findSome?_eq_some hfind
    obtain ⟨hmem, hle⟩ := List.mem_filter.mp hf
    exact ⟨f, hmem, of_decide_eq_true hle, g, hg, (Destination.point.inj h).symm⟩
  · exact absurd (Destination.point.inj h).symm hne

/-- **Motions up and down change the level by one.**  Behind its opener a collection is the innermost
one; at its start, and at its end when it is closed, the innermost one is the collection around it.
So repeated motions up lead from an offset to the starts of the collections whose interior has the
offset, from the innermost to the outermost, and then stay.  A motion down that moves enters a
collection of the row, which is directly inside the innermost collection at the offset, and from there
the motion up leads to its start. -/
theorem up_down_levels (d : Document) :
    (∀ f ∈ d.nodes, f.isCollection → d.innermost? f.innerStart = some f ∧
      d.innermost? f.start = f.enclosing? ∧ (f.isClosed → d.innermost? f.stop = f.enclosing?)) ∧
    (∀ offset, (d.holders offset).Pairwise (fun f g => f ∈ g.inside) ∧
      Motion.up.Traverses d offset ((d.holders offset).map (·.start))) ∧
    ∀ offset r, Motion.down.target d offset = .point r → r ≠ offset →
      ∃ f ∈ (d.container offset).forms, offset ≤ f.start ∧ ∃ g, f.asCollection? = some g ∧
        g.enclosing? = d.innermost? offset ∧ r = g.innerStart ∧
        d.innermost? r = some g ∧ Motion.up.target d r = .point g.start := by
  refine ⟨?_, ?_, ?_⟩
  · intro f hf hk
    have hplaced := placed_of_mem_nodes hf
    have hform : f ∈ d.forms := mem_forms_iff.mpr ⟨hf, Kind.isForm_of_isCollection hk⟩
    refine ⟨hplaced.innermost?_innerStart hk, innermost?_start hform, ?_⟩
    intro hclosed
    refine innermost?_stop hform fun g hg hgk => ?_
    rcases List.mem_cons.mp hg with rfl | hg
    · exact hclosed
    · exact hplaced.isClosed_of_mem_inside hk hclosed hg hgk
  · intro offset
    exact ⟨d.pairwise_holders offset, d.traverses_up rfl⟩
  · intro offset r hdown hne
    obtain ⟨f, hf, hle, g, hg, rfl⟩ := exists_of_down hdown hne
    have hc := isContainer_container d offset
    have hfplaced := hc.placed.of_mem_forms hf
    obtain ⟨hplaced, hk⟩ := hfplaced.of_asCollection? hg
    have hinner := hplaced.innermost?_innerStart hk
    refine ⟨f, hf, hle, g, hg, ?_, rfl, hinner, ?_⟩
    · rw [hfplaced.enclosing?_of_asCollection? hg, Form.enclosing?_of_mem_forms hc.ne_prefixed hf,
        innermost?_eq_container]
    · rw [Motion.target, hinner]

/-- Three collections that lack their closers end at the same offset, and the motion up still takes
them one by one.  The motion down passes an atom and a prefix. -/
theorem up_down_levels_unclosed :
    let d := ofText "(a '[(b) [c".toList
    (∃ f ∈ d.nodes, f.isCollection ∧ f.isClosed ∧ f.stop = 8 ∧ d.innermost? f.stop = f.enclosing?) ∧
    (d.holders 11).map (·.stop) = [11, 11, 11] ∧ Motion.up.Traverses d 11 [9, 4, 0] ∧
    Motion.down.target d 1 = .point 5 ∧
    ∃ f ∈ (d.container 1).forms, 1 ≤ f.start ∧ ∃ g, f.asCollection? = some g ∧
      g.enclosing? = d.innermost? 1 ∧ 5 = g.innerStart ∧
      d.innermost? 5 = some g ∧ Motion.up.target d 5 = .point g.start := by
  intro d
  obtain ⟨hedges, hup, hdown⟩ := up_down_levels d
  have hmem : ∃ f ∈ d.nodes, f.isCollection ∧ f.isClosed ∧ f.stop = 8 := by decide +kernel
  have hstops : (d.holders 11).map (·.stop) = [11, 11, 11] := by decide +kernel
  have hstarts : (d.holders 11).map (·.start) = [9, 4, 0] := by decide +kernel
  have hmove : Motion.down.target d 1 = .point 5 := by decide +kernel
  obtain ⟨f, hf, hk, hclosed, hstop⟩ := hmem
  have hclimb := (hup 11).2
  rw [hstarts] at hclimb
  exact ⟨⟨f, hf, hk, hclosed, hstop, (hedges f hf hk).2.2 hclosed⟩, hstops, hclimb, hmove,
    hdown 1 5 hmove (by decide)⟩

end Document

end SexpEdit
