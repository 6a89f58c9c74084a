/-
The narrowest range around a selection.

Widening looks for the shortest structural range that holds a selection and is not that selection.
It finds one whenever there is one, and what it finds is longer.  So a selection that is widened
again and again grows with every step until no structural range is left around it, and since it
never leaves the text there are no more steps than characters.  Every range that a widening can
select leaves all forms whole, so it can be killed and wrapped.

* `Document.widen_cases` — what one widening does;
* `Document.exists_fixed_widen` — what repeated widenings come to;
* `Document.expansion_narrowest` — the range that is selected is the narrowest one;
* `Document.expansion_accepted` — the edits on regions take it.
-/
import Mathlib.Logic.Function.Iterate
import SexpEdit.Edit.Kill
import SexpEdit.Proofs.Nesting
import SexpEdit.Proofs.Widening

namespace SexpEdit

namespace Document

variable {d : Document} {r q : Nat × Nat}

/-! ### One widening -/

/-- A structural range that holds the range `r` and is another one. -/
def IsAround (d : Document) (r q : Nat × Nat) : Prop :=
  d.IsStructural q ∧ q.1 ≤ r.1 ∧ r.2 ≤ q.2 ∧ q ≠ r

/-- The range that `r` is widened to. -/
def widen (d : Document) (r : Nat × Nat) : Nat × Nat :=
  (d.expansion r.1 r.2).ends r.2

/-- The range `q` holds `r` and is longer. -/
def Grows (r q : Nat × Nat) : Prop :=
  q.1 ≤ r.1 ∧ r.2 ≤ q.2 ∧ r.2 - r.1 < q.2 - q.1

theorem widen_of_expansion {start stop a b : Nat} (h : d.expansion start stop = .span a b) :
    d.widen (start, stop) = (a, b) := by
  rw [widen, h]
  rfl

/-- A `widen` finds the shortest of the structural ranges that `IsAround` a range, and stays where
it is when there are none. -/
theorem widen_cases (d : Document) (r : Nat × Nat) :
    (d.widen r = r ∧ ∀ q, ¬d.IsAround r q) ∨
      (d.IsAround r (d.widen r) ∧
        ∀ q, d.IsAround r q → (d.widen r).2 - (d.widen r).1 ≤ q.2 - q.1) := by
  have hmem : ∀ q, (q ∈ d.structuralRanges.filter fun q => q.1 ≤ r.1 && r.2 ≤ q.2 && q != r) ↔
      d.IsAround r q := by
    intro q
    rw [List.mem_filter, mem_structuralRanges_iff, IsAround]
    simp only [Bool.and_eq_true, decide_eq_true_eq, bne_iff_ne, ne_eq, and_assoc]
  rw [widen]
  unfold expansion
  dsimp only
  split
  · next s hs =>
    exact .inr ⟨(hmem s).mp (mem_of_narrowest? hs), fun q hq => narrowest?_le hs ((hmem q).mpr hq)⟩
  · next hnone =>
    refine .inl ⟨rfl, fun q hq => ?_⟩
    have hin := (hmem q).mpr hq
    rw [narrowest?_eq_none hnone] at hin
    cases hin

/-- A range with another one around it is shorter: it `Grows` to that one. -/
theorem IsAround.grows (h : d.IsAround r q) (hle : r.1 ≤ r.2) : Grows r q := by
  obtain ⟨-, hstart, hstop, hne⟩ := h
  refine ⟨hstart, hstop, ?_⟩
  have hends : ¬(q.1 = r.1 ∧ q.2 = r.2) := fun heq => hne (Prod.ext heq.1 heq.2)
  omega

/-- One step: a `widen` stays where it is, or grows inside the text. -/
theorem widen_step (hle : r.1 ≤ r.2) :
    d.widen r = r ∨ Grows r (d.widen r) ∧ (d.widen r).2 ≤ d.length := by
  rcases d.widen_cases r with ⟨hfixed, -⟩ | ⟨haround, -⟩
  · exact .inl hfixed
  · exact .inr ⟨haround.grows hle,
      stop_le_of_mem_structuralRanges (mem_structuralRanges_iff.mpr haround.1)⟩

/-! ### Repeated widenings -/

/-- A run of `widen` steps grows until it comes to a range that it keeps. -/
theorem exists_fixed_widen (hle : r.1 ≤ r.2) (hstop : r.2 ≤ d.length) :
    ∃ n, n + (r.2 - r.1) ≤ d.length ∧ (∀ k < n, Grows (d.widen^[k] r) (d.widen^[k + 1] r)) ∧
      d.widen (d.widen^[n] r) = d.widen^[n] r := by
  -- on the characters that are outside the range: every step that does anything takes some in
  induction hout : d.length - (r.2 - r.1) using Nat.strong_induction_on generalizing r with
  | _ out ih =>
    rcases d.widen_step hle with hfixed | ⟨hgrows, hstop'⟩
    · exact ⟨0, by omega, fun k hk => absurd hk (Nat.not_lt_zero k), hfixed⟩
    · have hlonger := hgrows.2.2
      obtain ⟨n, hn, hrun, hfixed⟩ :=
        ih (d.length - ((d.widen r).2 - (d.widen r).1)) (by omega) (by omega) hstop' rfl
      refine ⟨n + 1, by omega, ?_, hfixed⟩
      intro k hk
      cases k with
      | zero => exact hgrows
      | succ k => exact hrun k (by omega)

/-- **A selection is widened to the narrowest structural range around it.**  The new range holds the
old one and lies in the text.  Either nothing structural is around the old range and it is kept, or
the new one is a form or the interior of a collection, it is longer, and no other structural range
around the old one is shorter.  Repeated widenings grow step by step, and from some step on, after
no more of them than there are characters, they keep the range. -/
theorem expansion_narrowest {start stop : Nat} (hle : start ≤ stop) (hstop : stop ≤ d.length) :
    (∃ a b, d.expansion start stop = .span a b ∧ a ≤ start ∧ stop ≤ b ∧ b ≤ d.length ∧
      ((a, b) = (start, stop) ∧ (∀ q, ¬d.IsAround (start, stop) q) ∨
        d.IsStructural (a, b) ∧ stop - start < b - a ∧
          ∀ q, d.IsAround (start, stop) q → b - a ≤ q.2 - q.1)) ∧
      ∃ n ≤ d.length,
        (∀ k < n, Grows (d.widen^[k] (start, stop)) (d.widen^[k + 1] (start, stop))) ∧
          ∀ k ≥ n, d.widen^[k] (start, stop) = d.widen^[n] (start, stop) := by
  constructor
  · obtain ⟨a, b, heq, ha, hb, hlength⟩ := d.expansion_bounds (a := start) hstop
    refine ⟨a, b, heq, ha, hb, hlength, ?_⟩
    have hwiden := widen_of_expansion heq
    rcases d.widen_cases (start, stop) with ⟨hfixed, hnone⟩ | ⟨haround, hleast⟩
    · exact .inl ⟨hwiden.symm.trans hfixed, hnone⟩
    · rw [hwiden] at haround hleast
      exact .inr ⟨haround.1, (haround.grows hle).2.2, hleast⟩
  · obtain ⟨n, hn, hrun, hfixed⟩ := exists_fixed_widen (d := d) (r := (start, stop)) hle hstop
    refine ⟨n, by omega, hrun, ?_⟩
    intro k hk
    obtain ⟨m, rfl⟩ : ∃ m, k = m + n := ⟨k - n, by omega⟩
    rw [Function.iterate_add_apply]
    exact Function.iterate_fixed hfixed m

/-- A caret in an empty list grows in four steps: the list, what is in the unclosed one around it,
that one, and the quoted form. -/
theorem expansion_narrowest_unclosed :
    let d := ofText "'(() [b".toList
    (List.range 6).map (fun k => d.widen^[k] (3, 3)) =
        [(3, 3), (2, 4), (2, 7), (1, 7), (0, 7), (0, 7)] ∧
      d.IsStructural (3, 3) ∧
      (∃ a b, d.expansion 3 3 = .span a b ∧ a ≤ 3 ∧ 3 ≤ b ∧ b ≤ d.length ∧
        ((a, b) = (3, 3) ∧ (∀ q, ¬d.IsAround (3, 3) q) ∨
          d.IsStructural (a, b) ∧ 3 - 3 < b - a ∧
            ∀ q, d.IsAround (3, 3) q → b - a ≤ q.2 - q.1)) ∧
        ∃ n ≤ d.length, (∀ k < n, Grows (d.widen^[k] (3, 3)) (d.widen^[k + 1] (3, 3))) ∧
          ∀ k ≥ n, d.widen^[k] (3, 3) = d.widen^[n] (3, 3) := by
  intro d
  have hstructural : (3, 3) ∈ d.structuralRanges := by decide +kernel
  exact ⟨by decide +kernel, mem_structuralRanges_iff.mp hstructural,
    expansion_narrowest (d := d) (Nat.le_refl 3) (by decide +kernel)⟩

/-! ### Edits on a selected range -/

section Region

variable {o : Edit.Options} {offset a b : Nat}

/-- A selection that is not empty is a `region?`, whichever of its ends the caret is at. -/
theorem region?_of_ends (hlt : a < b)
    (hends : offset = a ∧ o.otherEnd = some b ∨ offset = b ∧ o.otherEnd = some a) :
    o.region? offset = some (a, b) := by
  have hmin : min a b = a := by omega
  have hmax : max a b = b := by omega
  rcases hends with ⟨rfl, hother⟩ | ⟨rfl, hother⟩
  · simp only [Edit.Options.region?, hother]
    rw [if_neg (by omega), hmin, hmax]
  · simp only [Edit.Options.region?, hother]
    rw [if_neg (by omega), Nat.min_comm, Nat.max_comm, hmin, hmax]

theorem kill?_of_region (hregion : o.region? offset = some (a, b)) (hb : d.isBalanced a b) :
    d.kill? offset o = some ⟨[.deletion a (b - a)], a⟩ := by
  simp only [kill?, hregion, killRegion?, hb, if_true]

theorem wrap?_of_region (hregion : o.region? offset = some (a, b)) (hb : d.isBalanced a b) :
    d.wrap? offset o = some
      ⟨[.insertion b (o.delimiters.getD .parens).closing,
        .insertion a (o.delimiters.getD .parens).opening],
        a + (o.delimiters.getD .parens).opening.length⟩ := by
  simp only [wrap?, hregion, hb, if_true]

end Region

/-- **What a widening selects can be killed and wrapped.**  A new range leaves every form whole and
is not empty.  With it as the selection, from either end and whatever else they are told, the kill
takes away just the range, and the wrap puts its delimiters at both ends. -/
theorem expansion_accepted {start stop a b : Nat} (hle : start ≤ stop)
    (h : d.expansion start stop = .span a b) (hne : (a, b) ≠ (start, stop)) :
    d.isBalanced a b ∧ a < b ∧
      ∀ (o : Edit.Options) (offset : Nat),
        (offset = a ∧ o.otherEnd = some b ∨ offset = b ∧ o.otherEnd = some a) →
        d.kill? offset o = some ⟨[.deletion a (b - a)], a⟩ ∧
          d.wrap? offset o = some
            ⟨[.insertion b (o.delimiters.getD .parens).closing,
              .insertion a (o.delimiters.getD .parens).opening],
              a + (o.delimiters.getD .parens).opening.length⟩ := by
  have hwiden := widen_of_expansion h
  have haround : d.IsAround (start, stop) (a, b) := by
    rcases d.widen_cases (start, stop) with ⟨hfixed, -⟩ | ⟨haround, -⟩
    · exact absurd (hwiden.symm.trans hfixed) hne
    · rw [hwiden] at haround
      exact haround
  have hbalanced : d.isBalanced a b := isBalanced_of_isStructural haround.1
  have hlt : a < b := by
    have hlonger : stop - start < b - a := (haround.grows hle).2.2
    omega
  refine ⟨hbalanced, hlt, ?_⟩
  intro o offset hends
  have hregion := region?_of_ends hlt hends
  exact ⟨kill?_of_region hregion hbalanced, wrap?_of_region hregion hbalanced⟩

/-- Inside a quoted vector that is never closed, with a stray closer and a string in it, a caret in
the string is widened to the string, and then to all that the vector has in it. -/
theorem expansion_accepted_unclosed :
    let d := ofText "'[) \"a\" b".toList
    d.expansion 5 5 = .span 4 7 ∧ d.expansion 4 7 = .span 2 9 ∧ d.isBalanced 5 7 = false ∧
      d.isBalanced 4 7 ∧ 4 < 7 ∧
      ∀ (o : Edit.Options) (offset : Nat),
        (offset = 4 ∧ o.otherEnd = some 7 ∨ offset = 7 ∧ o.otherEnd = some 4) →
        d.kill? offset o = some ⟨[.deletion 4 (7 - 4)], 4⟩ ∧
          d.wrap? offset o = some
            ⟨[.insertion 7 (o.delimiters.getD .parens).closing,
              .insertion 4 (o.delimiters.getD .parens).opening],
              4 + (o.delimiters.getD .parens).opening.length⟩ := by
  intro d
  have hexpansion : d.expansion 5 5 = .span 4 7 := by decide +kernel
  exact ⟨hexpansion, by decide +kernel, by decide +kernel,
    expansion_accepted (d := d) (Nat.le_refl 5) hexpansion (by decide)⟩

end Document

end SexpEdit
