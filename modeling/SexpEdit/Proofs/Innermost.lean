/-
The innermost collection.

The search for the innermost collection at an offset takes, in preorder, the last collection whose
interior has the offset.  Interiors that share an offset are nested: a closed collection has a closer
after its interior, and one that lacks its closer goes to the end of the text, so of two collections
side by side the second starts behind the interior of the first.  The last one in preorder is
therefore inside all the others.

* `Form.IsWithin` — a node is another one or has it around, as going outward from node to node finds;
* `Document.holds_iff` — the interior of a collection, by its delimiters;
* `Document.innermost_iff_deepest` — the search finds the collection that is within all the others
  at the offset.
-/
import Mathlib.Logic.Relation
import SexpEdit.Proofs.Traversal

namespace SexpEdit

namespace Form

/-! ### Nodes within nodes -/

/-- The first node is the second, or the second is around it: going from a node to the node around
it, step by step, leads there. -/
def IsWithin : Form → Form → Prop :=
  Relation.ReflTransGen fun f p => f.parent? = some p

/-- Climbing through the nodes around `f` reaches each of them, so `f` is within it. -/
theorem isWithin_of_suffix {f g : Form} (h : g.toSite :: g.around <:+ f.around) : f.IsWithin g := by
  obtain ⟨inner, haround⟩ := h
  -- on the nodes between the two, innermost first
  induction inner generalizing f with
  | nil =>
    have hparent : f.parent? = some g := by rw [parent?, ← haround, List.nil_append]
    exact .single hparent
  | cons s inner ih =>
    let p : Form := { s with around := inner ++ g.toSite :: g.around }
    have hparent : f.parent? = some p := by rw [parent?, ← haround, List.cons_append]
    exact .head hparent (ih rfl)

theorem isWithin_of_mem_inside {f g : Form} (h : f ∈ g.inside) : f.IsWithin g :=
  isWithin_of_suffix (suffix_of_mem_inside h)

/-- If `f.IsWithin g`, then `g` has no more around it than `f` has. -/
theorem IsWithin.depth_le {f g : Form} (h : f.IsWithin g) : g.around.length ≤ f.around.length := by
  induction h with
  | refl => exact Nat.le_refl _
  | @tail p q _ hparent ih =>
    refine Nat.le_trans ?_ ih
    rw [parent?] at hparent
    split at hparent
    · cases hparent
    · rename_i s around haround
      obtain rfl := Option.some.inj hparent
      rw [haround, List.length_cons]
      exact Nat.le_succ _

end Form

namespace Document

variable {d : Document} {f g : Form} {offset : Nat}

/-! ### Interiors -/

/-- **The interior of a collection** that `holds` offsets starts behind the opener and ends before
the closer, or with the text when there is no closer. -/
theorem holds_iff (hf : f ∈ d.nodes) (hk : f.isCollection) :
    f.holds offset ↔
      f.start < offset ∧ if f.isClosed then offset < f.stop else offset ≤ d.length := by
  have hplaced := placed_of_mem_nodes hf
  have hframed := hplaced.framed hk
  rw [Form.holds_iff_between, hframed.innerStart_eq]
  by_cases hclosed : f.isClosed
  · have hstop := hframed.innerStop_of_isClosed hclosed
    rw [if_pos hclosed]
    omega
  · rw [if_neg hclosed, Form.innerStop, if_neg hclosed, hplaced.stop_of_open hk hclosed]
    exact Iff.rfl

/-- Of two collections that hold `offset` one `IsWithin` the other. -/
theorem isWithin_or_mem_inside (hf : f ∈ d.nodes) (hg : g ∈ d.nodes) (hfk : f.isCollection)
    (hgk : g.isCollection) (hfh : f.holds offset) (hgh : g.holds offset) :
    f.IsWithin g ∨ g ∈ f.inside := by
  rcases nested_or_apart hf hg with rfl | (hgf | hfg) | (happ | happ)
  · exact .inl .refl
  · exact .inr hgf
  · exact .inl (Form.isWithin_of_mem_inside hfg)
  · have hlt := start_lt_of_holds hf hg hfk hgk hfh hgh
    exact absurd happ (Nat.not_le.mpr hlt)
  · have hlt := start_lt_of_holds hg hf hgk hfk hgh hfh
    exact absurd happ (Nat.not_le.mpr hlt)

/-! ### The search -/

theorem innermost?_eq_some_iff :
    d.innermost? offset = some f ↔ f ∈ d.nodes ∧ f.isCollection ∧ f.holds offset ∧
      ∀ g ∈ d.nodes, g.isCollection → g.holds offset → f.IsWithin g := by
  constructor
  · intro h
    obtain ⟨hf, hk, hholds, hinside⟩ := innermost?_eq_some h
    refine ⟨hf, hk, hholds, ?_⟩
    intro g hg hgk hgh
    rcases isWithin_or_mem_inside hf hg hk hgk hholds hgh with hwithin | hin
    · exact hwithin
    · exact absurd hgh (hinside g hin hgk)
  · rintro ⟨hf, hk, hholds, hall⟩
    have hplaced := placed_of_mem_nodes hf
    refine hplaced.innermost?_of_holds hk hholds ?_
    -- a collection inside that holds the offset would be around this one too
    intro g hg hgk hgh
    have hdeep := Form.depth_lt_of_mem_inside hg
    have hle := (hall g (hplaced.mem_nodes_of_mem_inside hg) hgk hgh).depth_le
    omega

theorem innermost?_eq_none_iff :
    d.innermost? offset = none ↔ ∀ g ∈ d.nodes, g.isCollection → ¬g.holds offset :=
  ⟨innermost?_eq_none, innermost?_of_forall⟩

/-- **The search finds the innermost collection.**  At any offset of any document a collection is
found exactly when its interior has the offset and it is within every collection whose interior has
the offset; none is found exactly when no interior has it.  An interior reaches from behind the opener
to before the closer, or to the end of the text when the closer is missing, and both edges count. -/
theorem innermost_iff_deepest (d : Document) (offset : Nat) :
    (∀ f, d.innermost? offset = some f ↔ f ∈ d.nodes ∧ f.isCollection ∧ f.holds offset ∧
      ∀ g ∈ d.nodes, g.isCollection → g.holds offset → f.IsWithin g) ∧
    (d.innermost? offset = none ↔ ∀ g ∈ d.nodes, g.isCollection → ¬g.holds offset) ∧
    ∀ f ∈ d.nodes, f.isCollection → (f.holds offset ↔
      f.start < offset ∧ if f.isClosed then offset < f.stop else offset ≤ d.length) :=
  ⟨fun _ => innermost?_eq_some_iff, innermost?_eq_none_iff, fun _ hf hk => holds_iff hf hk⟩

/-- The end of the text is held by three collections that lack their closers, behind a closed
collection and a stray closer; the last of them to start is found. -/
theorem innermost_iff_deepest_unclosed :
    let d := ofText "(a [b] ] [c (".toList
    ∃ f, d.innermost? 13 = some f ∧ f.start = 12 ∧ f.holds 13 ∧
      (∃ g ∈ d.nodes, g.isCollection ∧ g.start = 0 ∧ f.IsWithin g) ∧ d.innermost? 0 = none := by
  intro d
  obtain ⟨f, hf, hstart⟩ : ∃ f, d.innermost? 13 = some f ∧ f.start = 12 := by
    have hmap : (d.innermost? 13).map (·.start) = some 12 := by decide +kernel
    exact Option.map_eq_some_iff.mp hmap
  obtain ⟨-, -, hholds, hall⟩ := ((innermost_iff_deepest d 13).1 f).mp hf
  obtain ⟨g, hg, hk, hgstart, hgholds⟩ :
      ∃ g ∈ d.nodes, g.isCollection ∧ g.start = 0 ∧ g.holds 13 := by decide +kernel
  have hnone : ∀ g ∈ d.nodes, g.isCollection → ¬g.holds 0 := by decide +kernel
  exact ⟨f, hf, hstart, hholds, ⟨g, hg, hk, hgstart, hall g hg hk hgholds⟩,
    (innermost_iff_deepest d 0).2.1.mpr hnone⟩

end Document

end SexpEdit
