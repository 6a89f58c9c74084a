/-
Motions.

A motion takes an offset of a document to a `Destination`: a point, or a span with an active end.
A motion that has nowhere to go stays where it is. `Document.expansion` widens a range to the
narrowest structural range around it: a form, or the interior of a collection.
-/
import SexpEdit.Document

namespace SexpEdit

/-- Where a motion leads. -/
inductive Destination where
  | point (offset : Nat)
  /-- A range; the second end is the active one. -/
  | span (anchor cursor : Nat)
  deriving DecidableEq, Repr

namespace Destination

/-- Both ends of a range: a point is paired with `cursor`, the offset it was reached from. -/
def ends (cursor : Nat) : Destination → Nat × Nat
  | point offset => (cursor, offset)
  | span a b => (a, b)

end Destination

/-- The structural motions. -/
inductive Motion where
  /-- To the top-level form around the offset, as a span. -/
  | topLevel
  /-- To the end of the next form. -/
  | forward
  /-- To the start of the form before. -/
  | backward
  /-- Into the next collection. -/
  | down
  /-- To the start of the collection around. -/
  | up
  /-- Past the end of the collection around. -/
  | out
  deriving DecidableEq, Repr

namespace Motion

/-- Every `Motion`. -/
def all : List Motion :=
  [topLevel, forward, backward, down, up, out]

/-- Where a `Motion` leads from an offset. -/
def target (d : Document) (offset : Nat) : Motion → Destination
  | topLevel =>
    match d.root.forms.find? fun f => f.start ≤ offset && offset ≤ f.stop with
    | some f => .span f.start f.stop
    | none => .point offset
  | forward =>
    match (d.container offset).forms.find? fun f => offset < f.stop with
    | some f => .point f.stop
    | none => .point offset
  | backward =>
    match ((d.container offset).forms.filter fun f => f.start < offset).getLast? with
    | some f => .point f.start
    | none => .point offset
  | down =>
    match ((d.container offset).forms.filter fun f => offset ≤ f.start).findSome?
        Form.asCollection? with
    | some f => .point f.innerStart
    | none => .point offset
  | up =>
    match d.innermost? offset with
    | some f => .point f.start
    | none => .point offset
  | out =>
    match d.innermost? offset with
    | some f => .point f.stop
    | none => .point offset

end Motion

/-- The first of the shortest ranges. -/
def narrowest? : List (Nat × Nat) → Option (Nat × Nat)
  | [] => none
  | r :: rs =>
    match narrowest? rs with
    | none => some r
    | some s => if s.2 - s.1 < r.2 - r.1 then some s else some r

theorem mem_of_narrowest? : ∀ {rs : List (Nat × Nat)} {r : Nat × Nat},
    narrowest? rs = some r → r ∈ rs
  | q :: rs, r, h => by
    rw [narrowest?] at h
    rcases hrest : narrowest? rs with _ | s
    · rw [hrest] at h
      obtain rfl := Option.some.inj h
      exact List.mem_cons_self
    · rw [hrest] at h
      dsimp only at h
      split at h
      · obtain rfl := Option.some.inj h
        exact List.mem_cons_of_mem q (mem_of_narrowest? hrest)
      · obtain rfl := Option.some.inj h
        exact List.mem_cons_self

theorem narrowest?_eq_none {rs : List (Nat × Nat)} (h : narrowest? rs = none) : rs = [] := by
  cases rs with
  | nil => rfl
  | cons r rs =>
    rw [narrowest?] at h
    split at h
    · cases h
    · split at h <;> cases h

/-- No range of `rs` is shorter than the one that `narrowest?` finds. -/
theorem narrowest?_le : ∀ {rs : List (Nat × Nat)} {r q : Nat × Nat},
    narrowest? rs = some r → q ∈ rs → r.2 - r.1 ≤ q.2 - q.1
  | p :: rs, r, q, h, hq => by
    rw [narrowest?] at h
    rcases hrest : narrowest? rs with _ | s
    · -- the list has one range
      rw [hrest] at h
      obtain rfl := Option.some.inj h
      rw [narrowest?_eq_none hrest] at hq
      obtain rfl := List.mem_singleton.mp hq
      exact Nat.le_refl _
    · rw [hrest] at h
      dsimp only at h
      have htail : q ∈ rs → s.2 - s.1 ≤ q.2 - q.1 := narrowest?_le hrest
      split at h
      · obtain rfl := Option.some.inj h
        rcases List.mem_cons.mp hq with rfl | hq
        · omega
        · exact htail hq
      · obtain rfl := Option.some.inj h
        rcases List.mem_cons.mp hq with rfl | hq
        · exact Nat.le_refl _
        · have hle := htail hq
          omega

namespace Document

/-- The structural ranges: every form, and after a collection its interior. -/
def structuralRanges (d : Document) : List (Nat × Nat) :=
  d.forms.flatMap fun f =>
    if f.isCollection then [(f.start, f.stop), (f.innerStart, f.innerStop)]
    else [(f.start, f.stop)]

/-- The narrowest structural range around `start..stop` that is not that range, or the range itself
when there is none. -/
def expansion (d : Document) (start stop : Nat) : Destination :=
  let wider := d.structuralRanges.filter fun r =>
    r.1 ≤ start && stop ≤ r.2 && r != (start, stop)
  match narrowest? wider with
  | some r => .span r.1 r.2
  | none => .span start stop

end Document

end SexpEdit
