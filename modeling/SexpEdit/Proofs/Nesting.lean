/-
Forms nest.

Of two nodes of a document one is inside the other, or they are apart.  What is inside a collection
lies in its interior, and nothing is inside an atom.  A range that belongs to a form, which is its
own range or the interior of a collection, so leaves every form whole: those inside it, those around
it and those apart from it.  That is what the region check asks of a range.

* `Form.pairwise_within` — in preorder a node comes before those inside it and those behind it;
* `Document.nested_or_apart` — of two nodes one is inside the other, or they are apart;
* `Document.isBalanced_iff` — a range passes the check when it leaves every form whole;
* `Document.isBalanced_of_isStructural` — the structural ranges pass it.
-/
import SexpEdit.Proofs.WrapSplice

namespace SexpEdit

open SexpEdit.Tree Grammar

namespace Form

/-! ### The nodes inside a node -/

/-- The nodes inside a node, in preorder. -/
def inside (f : Form) : List Form :=
  rowWithin (f.toSite :: f.around) f.start f.children

mutual

theorem stop_le_of_mem_within : ∀ {t : Tree} {around : List Site} {start : Nat} {f : Form},
    f ∈ within around start t → f.stop ≤ start + t.width
  | .leaf _, _, _, _, h => absurd h List.not_mem_nil
  | .node k ts, around, start, f, h => by
    rw [within] at h
    rcases List.mem_cons.mp h with rfl | h
    · exact Nat.le_refl _
    · exact stop_le_of_mem_rowWithin h

theorem stop_le_of_mem_rowWithin : ∀ {ts : List Tree} {around : List Site} {start : Nat}
    {f : Form}, f ∈ rowWithin around start ts → f.stop ≤ start + rowWidth ts
  | [], _, _, _, h => absurd h List.not_mem_nil
  | t :: ts, around, start, f, h => by
    rw [rowWithin] at h
    rw [rowWidth]
    rcases List.mem_append.mp h with h | h
    · have hle := stop_le_of_mem_within h
      omega
    · have hle := stop_le_of_mem_rowWithin h
      omega

end

mutual

/-- In preorder a node comes before those `inside` it, and before those that start after it has
ended. -/
theorem pairwise_within : ∀ (t : Tree) (around : List Site) (start : Nat),
    (within around start t).Pairwise fun f g => g ∈ f.inside ∨ f.stop ≤ g.start
  | .leaf _, _, _ => .nil
  | .node k ts, around, start => by
    rw [within]
    exact .cons (fun g hg => .inl hg) (pairwise_rowWithin ts _ start)

theorem pairwise_rowWithin : ∀ (ts : List Tree) (around : List Site) (start : Nat),
    (rowWithin around start ts).Pairwise fun f g => g ∈ f.inside ∨ f.stop ≤ g.start
  | [], _, _ => .nil
  | t :: ts, around, start => by
    rw [rowWithin]
    refine List.pairwise_append.mpr
      ⟨pairwise_within t around start, pairwise_rowWithin ts around _, ?_⟩
    intro f hf g hg
    exact .inr ((stop_le_of_mem_within hf).trans (start_le_of_mem_rowWithin hg))

end

/-- What is `inside` a node lies between its ends. -/
theorem bounds_of_mem_inside {f g : Form} (h : g ∈ f.inside) :
    f.start ≤ g.start ∧ g.stop ≤ f.stop := by
  refine ⟨start_le_of_mem_rowWithin h, ?_⟩
  have hstop : f.stop = f.start + rowWidth f.children := f.stop_eq
  rw [hstop]
  exact stop_le_of_mem_rowWithin h

namespace Placed

variable {d : Document} {f g : Form}

/-- What is `inside` a collection lies in its interior. -/
theorem interior_of_mem_inside (h : Placed d.tree f) (hk : f.isCollection) (hg : g ∈ f.inside) :
    f.innerStart ≤ g.start ∧ g.stop ≤ f.innerStop := by
  have hframed := h.framed hk
  obtain ⟨o, es, hchildren, -, ho, hends⟩ := h.exists_delimiters hk
  have hwidth : rowWidth f.children = 1 + rowWidth es := by
    rw [hchildren, rowWidth, width, ho]
  have hstop : f.stop = f.start + rowWidth f.children := f.stop_eq
  -- the opener is no node, so all that is inside stands in the row behind it
  have hrow : g ∈ rowWithin (f.toSite :: f.around) (f.start + 1) es := by
    rw [inside, hchildren, rowWithin, within, width, ho, List.nil_append] at hg
    exact hg
  rw [hframed.innerStart_eq]
  refine ⟨start_le_of_mem_rowWithin hrow, ?_⟩
  rcases hends with ⟨hclosed, xs, c, rfl, -, hc⟩ | ⟨hopen, -⟩
  · have hinner := hframed.innerStop_of_isClosed hclosed
    have hlast : ∀ around start, rowWithin around start [.leaf c] = [] := fun _ _ => rfl
    rw [rowWithin_append, hlast, List.append_nil] at hrow
    have hle := stop_le_of_mem_rowWithin hrow
    rw [rowWidth_append, rowWidth, rowWidth, width, hc] at hwidth
    omega
  · have hle := stop_le_of_mem_rowWithin hrow
    rw [innerStop, if_neg hopen]
    omega

/-- An atom is one token. -/
theorem exists_token_of_atom (h : Placed d.tree f) (hk : f.kind = .atom) :
    ∃ t, f.children = [.leaf t] ∧ t.kind.isAtomic := by
  obtain ⟨rest, -, hform⟩ := h.exists_isForm (by rw [hk]; rfl)
  rw [hk] at hform
  generalize f.children = ts at hform
  cases hform with
  | atom ht => exact ⟨_, rfl, ht⟩
  | closed ho => cases Kind.isCollection_of_collection? ho
  | unclosed ho => cases Kind.isCollection_of_collection? ho

theorem inside_of_atom (h : Placed d.tree f) (hk : f.kind = .atom) : f.inside = [] := by
  obtain ⟨t, hchildren, -⟩ := h.exists_token_of_atom hk
  rw [inside, hchildren]
  rfl

end Placed

/-! ### Ranges that leave a form whole -/

/-- The form `f` has the range from `start` to `stop` in it and keeps its delimiters out of the
range. -/
def Surrounds (f : Form) (start stop : Nat) : Prop :=
  if f.isCollection then f.innerStart ≤ start ∧ stop ≤ f.innerStop
  else if f.isString then f.start < start ∧ stop < f.stop
  else f.start ≤ start ∧ stop ≤ f.stop

/-- A range leaves the form whole: it is apart from the form, has the form in it, or lies in the form
between its delimiters. -/
def Spared (f : Form) (start stop : Nat) : Prop :=
  (stop ≤ f.start ∨ f.stop ≤ start) ∨ (start ≤ f.start ∧ f.stop ≤ stop) ∨ f.Surrounds start stop

theorem Surrounds.mono {f : Form} {start stop a b : Nat} (h : f.Surrounds start stop)
    (hstart : start ≤ a) (hstop : b ≤ stop) : f.Surrounds a b := by
  unfold Surrounds at h ⊢
  split_ifs at h ⊢ <;> omega

/-- A form `Surrounds` what is `inside` it. -/
theorem Placed.surrounds_of_mem_inside {d : Document} {f g : Form} (h : Placed d.tree f)
    (hg : g ∈ f.inside) : f.Surrounds g.start g.stop := by
  unfold Surrounds
  split
  · exact h.interior_of_mem_inside ‹_› hg
  · split
    · -- a string is an atom, and nothing is inside it
      rename_i hstring
      rw [h.inside_of_atom (kind_of_isAtomOf hstring)] at hg
      cases hg
    · exact bounds_of_mem_inside hg

/-- A range that belongs to a form: it lies in the form, has in it all that is inside the form, and
does not cut the form itself. -/
structure Spans (f : Form) (start stop : Nat) : Prop where
  start_le : f.start ≤ start
  le_stop : stop ≤ f.stop
  holds_inside : ∀ g ∈ f.inside, start ≤ g.start ∧ g.stop ≤ stop
  spared : f.Spared start stop

theorem spans_whole (f : Form) : f.Spans f.start f.stop where
  start_le := Nat.le_refl _
  le_stop := Nat.le_refl _
  holds_inside := fun _ hg => bounds_of_mem_inside hg
  spared := .inr (.inl ⟨Nat.le_refl _, Nat.le_refl _⟩)

theorem Placed.spans_interior {d : Document} {f : Form} (h : Placed d.tree f)
    (hk : f.isCollection) : f.Spans f.innerStart f.innerStop where
  start_le := Nat.le_add_right _ _
  le_stop := (h.framed hk).inner_bounds.2
  holds_inside := fun _ hg => h.interior_of_mem_inside hk hg
  spared := by
    refine .inr (.inr ?_)
    rw [Surrounds, if_pos hk]
    exact ⟨Nat.le_refl _, Nat.le_refl _⟩

end Form

namespace Document

open Form (Placed Spans)

variable {d : Document} {f g : Form}

/-- **Forms nest.** Of two nodes of a document one is `inside` the other, or they are apart. -/
theorem nested_or_apart (hf : f ∈ d.nodes) (hg : g ∈ d.nodes) :
    f = g ∨ (g ∈ f.inside ∨ f ∈ g.inside) ∨ (f.stop ≤ g.start ∨ g.stop ≤ f.start) := by
  have hpairwise := Form.pairwise_within d.tree [] 0
  rw [← d.nodes_eq] at hpairwise
  -- whichever of the two comes first in preorder, the other is inside it or behind it
  refine List.Pairwise.forall_of_forall_of_flip
    (R := fun f g => f = g ∨ (g ∈ f.inside ∨ f ∈ g.inside) ∨ (f.stop ≤ g.start ∨ g.stop ≤ f.start))
    (fun f _ => .inl rfl) (hpairwise.imp ?_) (hpairwise.imp ?_) hf hg
  · intro f g h
    exact .inr (h.imp .inl .inl)
  · intro f g h
    exact .inr (h.imp .inr .inr)

/-! ### The region check -/

theorem mem_forms_iff : f ∈ d.forms ↔ f ∈ d.nodes ∧ f.kind.isForm := by
  rw [forms, List.mem_filter]

/-- A range passes the check `isBalanced` when it leaves every form `Spared`. -/
theorem isBalanced_iff {start stop : Nat} :
    d.isBalanced start stop ↔ ∀ f ∈ d.forms, f.Spared start stop := by
  rw [isBalanced, List.all_eq_true]
  refine forall₂_congr fun f _ => ?_
  by_cases hmeets : f.start < stop ∧ start < f.stop
  · have hapart : ¬(stop ≤ f.start ∨ f.stop ≤ start) := by omega
    rw [if_pos (by simp [hmeets]), Form.Spared, or_iff_right hapart, Form.Surrounds]
    cases f.isCollection <;> cases f.isString <;> simp
  · have hapart : stop ≤ f.start ∨ f.stop ≤ start := by omega
    rw [if_neg (by simpa using hmeets)]
    exact ⟨fun _ => .inl hapart, fun _ => rfl⟩

/-- A range that a form `Spans` leaves every form `Spared`. -/
theorem spared_of_spans {start stop : Nat} (hf : f ∈ d.nodes) (hspans : f.Spans start stop)
    (hg : g ∈ d.nodes) : g.Spared start stop := by
  have hle := hspans.start_le
  have hstop := hspans.le_stop
  rcases nested_or_apart hf hg with rfl | (hin | hin) | hapart
  · exact hspans.spared
  · exact .inr (.inl (hspans.holds_inside g hin))
  · -- the form is inside `g`, and the range with it
    have hsurrounds := (placed_of_mem_nodes hg).surrounds_of_mem_inside hin
    exact .inr (.inr (hsurrounds.mono hle hstop))
  · refine .inl ?_
    omega

/-! ### Structural ranges -/

/-- The range of a form, or the interior of a collection. -/
def IsStructural (d : Document) (r : Nat × Nat) : Prop :=
  ∃ f ∈ d.forms, r = (f.start, f.stop) ∨ f.isCollection ∧ r = (f.innerStart, f.innerStop)

theorem mem_structuralRanges_iff {r : Nat × Nat} : r ∈ d.structuralRanges ↔ d.IsStructural r := by
  rw [structuralRanges, List.mem_flatMap]
  refine exists_congr fun f => and_congr_right fun _ => ?_
  by_cases hk : f.isCollection
  · rw [if_pos hk, List.mem_pair]
    simp [hk]
  · rw [if_neg hk, List.mem_singleton]
    simp [hk]

/-- **The ranges that are `IsStructural` pass the region check.** -/
theorem isBalanced_of_isStructural {r : Nat × Nat} (h : d.IsStructural r) :
    d.isBalanced r.1 r.2 := by
  obtain ⟨f, hf, hr⟩ := h
  have hnode := (mem_forms_iff.mp hf).1
  have hspans : f.Spans r.1 r.2 := by
    rcases hr with rfl | ⟨hk, rfl⟩
    · exact f.spans_whole
    · exact (placed_of_mem_nodes hnode).spans_interior hk
  refine isBalanced_iff.mpr ?_
  intro g hg
  exact spared_of_spans hnode hspans (mem_forms_iff.mp hg).1

end Document

end SexpEdit
