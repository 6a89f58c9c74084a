/-
Checked queries and edits.

The functions of `Checked` do the arithmetic of queries, motions and structural edits on machine
words.  In a document of at most `maxText` characters every number they meet is far below the size
of a word, and every difference, index and slice is exact because of where forms stand.  So at an
offset of the document each of them gives what the plain function gives, and no fault.

* `Checked.innermost_eq`, `Checked.target_eq`, `Checked.expansion_eq` — queries and motions;
* `Checked.edit_eq` — the structural edits.
-/
import SexpEdit.Checked.Edit
import SexpEdit.Proofs.Fitting

namespace SexpEdit

/-- How `maxText`, `maxSigned` and `maxWord` compare: a text is small against a word, and a word has
one bit more than a signed number. -/
theorem maxText_lt_maxSigned : 4 * maxText < maxSigned ∧ maxWord = 2 * maxSigned + 1 := by
  decide

namespace Checked

/-! ### Arithmetic -/

variable {α β : Type}

theorem plus_eq {a b : Nat} (h : a + b ≤ maxWord) : plus a b = pure (a + b) :=
  if_pos h

/-- Numbers up to `maxText` have a sum. -/
theorem plus_of_le {a b : Nat} (ha : a ≤ maxText) (hb : b ≤ maxText) :
    plus a b = pure (a + b) := by
  obtain ⟨hsmall, hword⟩ := maxText_lt_maxSigned
  exact plus_eq (by omega)

theorem minus_eq {a b : Nat} (h : b ≤ a) : minus a b = pure (a - b) :=
  if_pos h

theorem item_eq {xs : List α} {i : Nat} {x : α} (h : xs[i]? = some x) : item xs i = pure x := by
  rw [item, h]

theorem slice_eq {cs : List Char} {start stop : Nat} (hle : start ≤ stop)
    (hstop : stop ≤ cs.length) : slice cs start stop = pure (Text.slice cs start stop) :=
  if_pos ⟨hle, hstop⟩

theorem signed_eq {n : Nat} (h : n ≤ maxSigned) : signed n = n :=
  if_pos h

theorem unsigned_eq {z : Int} (h : 0 ≤ z) : unsigned z = z.toNat :=
  if_pos h

/-! ### Room -/

/-- `m` gives `a` when there is `room`.  When there is none it gives something with the property
`P`, or a number or a text becomes too large; it never breaks off for another reason. -/
inductive Gives (room : Prop) (m : Checked α) (P : α → Prop) (a : α) : Prop
  | value (x : α) (h : m = pure x) (hx : P x) (heq : room → x = a)
  | outgrown (f : Fault) (h : m = throw f) (hsize : f.isSize) (hroom : ¬room)

namespace Gives

variable {room room' : Prop} {m : Checked α} {P Q : α → Prop} {R : β → Prop} {a b : α} {c : β}

theorem of_eq (h : m = pure a) (ha : P a) : Gives room m P a :=
  .value a h ha fun _ => rfl

/-- Whether there is `room` or not, the only faults are those with `isSize`. -/
theorem cases (h : Gives room m P a) :
    (∃ x, m = pure x ∧ P x) ∨ ∃ f, m = throw f ∧ f.isSize := by
  cases h with
  | value x h hx _ => exact .inl ⟨x, h, hx⟩
  | outgrown f h hsize _ => exact .inr ⟨f, h, hsize⟩

theorem weaken (h : Gives room m P a) (hroom : room' → room) (hP : ∀ x, P x → Q x)
    (heq : room' → a = b) : Gives room' m Q b := by
  cases h with
  | value x h hx hxa => exact .value x h (hP x hx) fun hr => (hxa (hroom hr)).trans (heq hr)
  | outgrown f h hsize hnone => exact .outgrown f h hsize fun hr => hnone (hroom hr)

/-- **One step after another.** The second has to be looked at for every value that the first may
give; with `room` there is only one. -/
theorem bind {k : α → Checked β} (h : Gives room m P a)
    (hk : ∀ x, P x → (room → x = a) → Gives room (k x) R c) : Gives room (m >>= k) R c := by
  cases h with
  | value x h hx heq =>
    rw [h, pure_bind]
    exact hk x hx heq
  | outgrown f h hsize hnone =>
    rw [h]
    exact .outgrown f rfl hsize hnone

end Gives

theorem plus_gives {room : Prop} {a b : Nat} (h : room → a + b ≤ maxWord) :
    Gives room (plus a b) (· = a + b) (a + b) := by
  by_cases hfits : a + b ≤ maxWord
  · exact .of_eq (plus_eq hfits) rfl
  · exact .outgrown _ (if_neg hfits) rfl fun hroom => hfits (h hroom)

theorem signedPlus_gives {room : Prop} {a b : Int} (hlow : -(maxSigned + 1 : Int) ≤ a + b)
    (h : room → a + b ≤ maxSigned) : Gives room (signedPlus a b) (· = a + b) (a + b) := by
  by_cases hfits : a + b ≤ maxSigned
  · exact .of_eq (if_pos ⟨hlow, hfits⟩) rfl
  · exact .outgrown _ (if_neg fun hin => hfits hin.2) rfl fun hroom => hfits (h hroom)

/-- Without `room` a signed sum is anything, or too large. -/
theorem signedPlus_of_not {room : Prop} (h : ¬room) (a b c : Int) :
    Gives room (signedPlus a b) (fun _ => True) c := by
  by_cases hfits : -(maxSigned + 1 : Int) ≤ a + b ∧ a + b ≤ maxSigned
  · exact .value (a + b) (if_pos hfits) trivial fun hroom => absurd hroom h
  · exact .outgrown _ (if_neg hfits) rfl h

/-! ### Lists -/

theorem filterM_eq {p : α → Checked Bool} {q : α → Bool} {xs : List α}
    (h : ∀ x ∈ xs, p x = pure (q x)) : xs.filterM p = pure (xs.filter q) := by
  have haux : ∀ acc, List.filterAuxM p xs acc = pure ((xs.filter q).reverse ++ acc) := by
    induction xs with
    | nil =>
      intro acc
      rfl
    | cons x xs ih =>
      intro acc
      rw [List.filterAuxM, h x (by simp), pure_bind, ih fun y hy => h y (by simp [hy])]
      cases hq : q x <;> simp [hq]
  rw [List.filterM, haux, pure_bind, List.append_nil, List.reverse_reverse]

theorem allM_eq {p : α → Checked Bool} {q : α → Bool} {xs : List α}
    (h : ∀ x ∈ xs, p x = pure (q x)) : xs.allM p = pure (xs.all q) := by
  induction xs with
  | nil => rfl
  | cons x xs ih =>
    rw [List.allM, h x (by simp), pure_bind, ih fun y hy => h y (by simp [hy])]
    cases hq : q x <;> simp [hq]

theorem mapM_eq {f : α → Checked β} {g : α → β} {xs : List α}
    (h : ∀ x ∈ xs, f x = pure (g x)) : xs.mapM f = pure (xs.map g) := by
  induction xs with
  | nil => rfl
  | cons x xs ih =>
    rw [List.mapM_cons, h x (by simp), pure_bind, ih fun y hy => h y (by simp [hy]), pure_bind]
    rfl

theorem findSomeM?_eq {f : α → Checked (Option β)} {g : α → Option β} {xs : List α}
    (h : ∀ x ∈ xs, f x = pure (g x)) : xs.findSomeM? f = pure (xs.findSome? g) := by
  induction xs with
  | nil => rfl
  | cons x xs ih =>
    rw [List.findSomeM?, h x (by simp), pure_bind, ih fun y hy => h y (by simp [hy]),
      List.findSome?_cons]
    cases g x <;> rfl

/-! ### Documents -/

section Documents

variable {d : Document} {f : Form} {offset : Nat}

theorem document_eq {cs : List Char} (h : Text.byteLength cs ≤ maxText) :
    document cs = pure (.ofText cs) := by
  rw [document, if_neg (Nat.not_lt.mpr h), Tree.ofEvents?_ofTokens]

theorem length_eq (f : Form) : length f = pure f.length :=
  minus_eq f.start_le_stop

theorem text_eq (h : Form.Placed d.tree f) : text d f = pure f.text := by
  rw [text, slice_eq f.start_le_stop h.stop_le, h.slice_eq]

theorem innerStart_eq (h : f.Framed) (hf : f.stop ≤ maxText) :
    innerStart f = pure f.innerStart := by
  have hlt := h.start_lt
  have hopening := h.opening_length
  exact plus_of_le (by omega) (by omega)

theorem innerStop_eq (h : f.Framed) : innerStop f = pure f.innerStop := by
  rw [innerStop, Form.innerStop]
  by_cases hclosed : f.isClosed
  · have hlt := h.closed_lt hclosed
    have hclosing := h.closing_length
    rw [if_pos hclosed, if_pos hclosed, minus_eq (by omega)]
  · rw [if_neg hclosed, if_neg hclosed]

theorem holds_eq (h : f.Framed) (hf : f.stop ≤ maxText) :
    holds f offset = pure (f.holds offset) := by
  rw [holds, innerStart_eq h hf, pure_bind, innerStop_eq h, pure_bind, Form.holds]

variable (hd : d.length ≤ maxText)
include hd

/-- A collection among the nodes of a document is `Framed`, and ends where a text can end. -/
theorem framed_of_mem_nodes (hf : f ∈ d.nodes) (hk : f.isCollection) :
    f.Framed ∧ f.stop ≤ maxText := by
  have hplaced := Document.placed_of_mem_nodes hf
  exact ⟨hplaced.framed hk, hplaced.stop_le.trans hd⟩

theorem innermost_eq (offset : Nat) : innermost d offset = pure (d.innermost? offset) := by
  have heach : ∀ f ∈ d.nodes, (if f.isCollection then holds f offset else pure false) =
      pure (f.isCollection && f.holds offset) := by
    intro f hf
    by_cases hk : f.isCollection
    · obtain ⟨hframed, hstop⟩ := framed_of_mem_nodes hd hf hk
      rw [if_pos hk, holds_eq hframed hstop, hk, Bool.true_and]
    · rw [if_neg hk, Bool.eq_false_iff.mpr hk, Bool.false_and]
  rw [innermost, filterM_eq heach, pure_bind, Document.innermost?]

theorem container_eq (offset : Nat) : container d offset = pure (d.container offset) := by
  rw [container, innermost_eq hd, pure_bind, Document.container]

theorem isBalanced_eq (start stop : Nat) :
    isBalanced d start stop = pure (d.isBalanced start stop) := by
  refine allM_eq fun f hf => ?_
  by_cases hover : f.start < stop && start < f.stop
  · rw [if_pos hover, if_pos hover]
    by_cases hk : f.isCollection
    · obtain ⟨hframed, hstop⟩ := framed_of_mem_nodes hd (List.mem_filter.mp hf).1 hk
      simp only [if_pos hk, innerStart_eq hframed hstop, innerStop_eq hframed, pure_bind]
    · simp only [if_neg hk]
      by_cases hs : f.isString
      · simp only [if_pos hs, pure_bind]
      · simp only [if_neg hs, pure_bind]
  · rw [if_neg hover, if_neg hover]

end Documents

/-! ### Motions -/

section Motions

variable {d : Document} (hd : d.length ≤ maxText)
include hd

theorem target_eq (offset : Nat) (m : Motion) : target d offset m = pure (m.target d offset) := by
  cases m with
  | topLevel => rfl
  | forward | backward =>
    rw [target, container_eq hd, pure_bind]
    rfl
  | down =>
    rw [target, container_eq hd, pure_bind, Motion.target]
    dsimp only
    cases hlist : ((d.container offset).forms.filter fun f => offset ≤ f.start).findSome?
        Form.asCollection? with
    | none => rfl
    | some list =>
      obtain ⟨g, hg, hlist⟩ := List.exists_of_findSome?_eq_some hlist
      obtain ⟨hplaced, hk⟩ :=
        (Document.placed_of_mem_container (List.mem_filter.mp hg).1).of_asCollection? hlist
      have hstop := hplaced.stop_le
      dsimp only
      rw [innerStart_eq (hplaced.framed hk) (hstop.trans hd), pure_bind]
  | up | out =>
    rw [target, innermost_eq hd, pure_bind]
    rfl

omit hd in
theorem narrowest_eq {ranges : List (Nat × Nat)} (h : ∀ r ∈ ranges, r.1 ≤ r.2) :
    narrowest ranges = pure (narrowest? ranges) := by
  induction ranges with
  | nil => rfl
  | cons r rs ih =>
    rw [narrowest, ih fun s hs => h s (by simp [hs]), pure_bind, narrowest?]
    cases hs : narrowest? rs with
    | none => rfl
    | some s =>
      simp only [minus_eq (h s (by simp [mem_of_narrowest? hs])), minus_eq (h r (by simp)), pure_bind]

theorem structuralRanges_eq : structuralRanges d = pure d.structuralRanges := by
  have heach : ∀ f ∈ d.forms,
      (if f.isCollection then do return [(f.start, f.stop), (← innerStart f, ← innerStop f)]
        else pure [(f.start, f.stop)] : Checked (List (Nat × Nat))) =
      pure (if f.isCollection then [(f.start, f.stop), (f.innerStart, f.innerStop)]
        else [(f.start, f.stop)]) := by
    intro f hf
    by_cases hk : f.isCollection
    · obtain ⟨hframed, hstop⟩ := framed_of_mem_nodes hd (List.mem_filter.mp hf).1 hk
      rw [if_pos hk, if_pos hk, innerStart_eq hframed hstop, pure_bind, innerStop_eq hframed,
        pure_bind]
    · rw [if_neg hk, if_neg hk]
  rw [structuralRanges, mapM_eq heach, pure_bind]
  rfl

theorem expansion_eq {start stop : Nat} (h : start ≤ stop) :
    expansion d start stop = pure (d.expansion start stop) := by
  have hwider : ∀ r ∈ d.structuralRanges.filter fun r =>
      r.1 ≤ start && stop ≤ r.2 && r != (start, stop), r.1 ≤ r.2 := by
    intro r hr
    have hin := (List.mem_filter.mp hr).2
    simp only [Bool.and_eq_true, decide_eq_true_eq] at hin
    omega
  rw [expansion, structuralRanges_eq hd, pure_bind]
  dsimp only
  rw [narrowest_eq hwider, pure_bind]
  rfl

end Motions

/-! ### Edits that move delimiters -/

section Reshaping

variable {d : Document} {offset : Nat}

theorem beforeLast_eq {list : Form} (hframed : list.Framed) (hstop : list.stop ≤ maxText)
    (h : list.forms ≠ []) :
    beforeLast list = pure (match list.forms.dropLast.getLast? with
      | some f => f.stop
      | none => list.innerStart) := by
  have hpos := List.length_pos_iff.mpr h
  have hlast : list.forms.dropLast.getLast? =
      if list.forms.length = 1 then none else list.forms[list.forms.length - 2]? := by
    rw [List.getLast?_dropLast]
    by_cases hone : list.forms.length = 1
    · rw [if_pos hone, if_pos (by omega)]
    · rw [if_neg hone, if_neg (by omega)]
  rw [beforeLast, hlast]
  by_cases hone : list.forms.length = 1
  · rw [if_pos hone, if_pos hone, innerStart_eq hframed hstop]
  · have hlt : list.forms.length - 2 < list.forms.length := by omega
    rw [if_neg hone, if_neg hone, minus_eq (by omega), pure_bind,
      item_eq (List.getElem?_eq_getElem hlt), pure_bind, List.getElem?_eq_getElem hlt]

theorem afterFirst_eq {list : Form} (h : list.Framed) :
    afterFirst list = pure (match list.forms[1]? with
      | some f => f.start
      | none => list.innerStop) := by
  rw [afterFirst, innerStop_eq h]
  cases list.forms[1]? <;> rfl

theorem uncloseChanges_eq {list : Form} (h : list.Framed) :
    uncloseChanges list = pure (Document.uncloseChanges list) := by
  rw [uncloseChanges, innerStop_eq h, pure_bind, Document.uncloseChanges, ← apply_ite]

theorem cutAt_eq (list : Form) (offset : Nat) :
    cutAt list offset = pure (match (Form.around? list.forms offset).bind (list.forms[·]?) with
      | some f => f.stop
      | none => offset) := by
  rw [cutAt]
  cases haround : Form.around? list.forms offset with
  | none => rfl
  | some i =>
    have hlt : i < list.forms.length := by
      obtain ⟨hlt, -⟩ := List.findIdx?_eq_some_iff_getElem.mp haround
      exact hlt
    simp only [item_eq (List.getElem?_eq_getElem hlt), pure_bind, Option.bind_some,
      List.getElem?_eq_getElem hlt]

/-- Where the last form of `list` before `offset` ends, or its `innerStart`. -/
def leftEdge (list : Form) (offset : Nat) : Nat :=
  match Form.lastBefore? list.forms offset with
  | some f => f.stop
  | none => list.innerStart

theorem leftOf_eq {list : Form} (h : list.Framed) (hstop : list.stop ≤ maxText) (cut : Nat) :
    leftOf list cut = pure (leftEdge list cut) := by
  rw [leftOf, leftEdge, innerStart_eq h hstop]
  cases Form.lastBefore? list.forms cut <;> rfl

theorem leftEdge_bounds {list : Form} (h : list.Framed) (cut : Nat) :
    list.start + 1 ≤ leftEdge list cut ∧ leftEdge list cut ≤ list.innerStop := by
  have hstart := h.innerStart_eq
  have hbounds := h.inner_bounds
  rw [leftEdge]
  split
  · rename_i f hf
    have hin := h.bounds_of_mem (List.mem_filter.mp (List.mem_of_getLast? hf)).1
    omega
  · omega

theorem rightOf_eq {list : Form} (h : list.Framed) (cut : Nat) :
    rightOf list cut = pure (match Form.firstAfter? list.forms cut with
      | some f => f.start
      | none => list.innerStop) := by
  rw [rightOf, innerStop_eq h]
  cases Form.firstAfter? list.forms cut <;> rfl

variable (hd : d.length ≤ maxText)
include hd

/-- The innermost collection at an offset is `Framed`, ends where a text can end, and has the offset
in its interior. -/
theorem framed_of_innermost? {list : Form} (h : d.innermost? offset = some list) :
    list.Framed ∧ list.stop ≤ maxText ∧ list.start + 1 ≤ offset ∧ offset ≤ list.innerStop := by
  obtain ⟨hplaced, hframed, hoffset⟩ := Document.framed_of_innermost? h
  exact ⟨hframed, hplaced.stop_le.trans hd, hoffset⟩

theorem outward_eq : outward d offset = pure (d.outward offset) := by
  rw [outward, innermost_eq hd, pure_bind]
  rfl

theorem slurp_eq (backward : Bool) :
    slurp d offset backward = pure (d.slurp? offset backward) := by
  rw [slurp, outward_eq hd, pure_bind]
  refine findSomeM?_eq fun list hmem => ?_
  obtain ⟨hplaced, hframed⟩ := Document.placed_of_mem_outward hmem
  by_cases hclosed : list.isClosed
  · have hlt := hframed.closed_lt hclosed
    have hclosing := hframed.closing_length
    rw [if_pos hclosed, if_pos hclosed]
    cases backward with
    | true =>
      simp only [if_true]
      cases list.prev? <;> rfl
    | false =>
      simp only [Bool.false_eq_true, if_false]
      cases hsibling : list.next? with
      | none => rfl
      | some sibling =>
        obtain ⟨-, hpos⟩ := hplaced.of_next? hsibling
        have hle := sibling.start_le_stop
        have hstop : minus list.stop list.closing.length = _ := minus_eq (by omega)
        have hsibling : minus sibling.stop list.closing.length = _ := minus_eq (by omega)
        simp only [adopt, Bool.false_eq_true, if_false, hstop, hsibling, pure_bind]
        rfl
  · rw [if_neg hclosed, if_neg hclosed]

theorem barf_eq (backward : Bool) : barf d offset backward = pure (d.barf? offset backward) := by
  rw [barf, innermost_eq hd, pure_bind, Document.barf?]
  cases hlist : d.innermost? offset with
  | none => rfl
  | some list =>
    obtain ⟨hframed, hstop, hoffset, hin⟩ := framed_of_innermost? hd hlist
    have hbounds := hframed.inner_bounds
    dsimp only
    by_cases happlies : !list.isClosed || list.forms.isEmpty
    · rw [if_pos happlies, if_pos happlies]
    · have hforms : list.forms ≠ [] := by
        rw [Bool.or_eq_true, not_or, List.isEmpty_iff] at happlies
        exact happlies.2
      rw [if_neg happlies, if_neg happlies]
      cases backward with
      | true =>
        rewrite [if_pos rfl, if_pos rfl, afterFirst_eq hframed, pure_bind,
          minus_eq (show 1 ≤ offset by omega), ← apply_ite, pure_bind]
        rfl
      | false =>
        have hnext : plus offset 1 = pure (offset + 1) :=
          plus_of_le (by omega) (by decide)
        rewrite [if_neg Bool.false_ne_true, if_neg Bool.false_ne_true,
          beforeLast_eq hframed hstop hforms, pure_bind, innerStop_eq hframed, pure_bind, hnext,
          ← apply_ite, pure_bind]
        rfl

theorem splice_eq : splice d offset = pure (d.splice? offset) := by
  rw [splice, innermost_eq hd, pure_bind, Document.splice?]
  cases hlist : d.innermost? offset with
  | none => rfl
  | some list =>
    obtain ⟨hframed, -, hoffset, -⟩ := framed_of_innermost? hd hlist
    have hopening := hframed.opening_length
    have hcaret : minus offset list.opening.length = _ := minus_eq (by omega)
    simp only [uncloseChanges_eq hframed, hcaret, Option.map_some, pure_bind]

theorem split_eq : split d offset = pure (d.split? offset) := by
  have hgap : ∀ left right : Nat,
      (if left < right then do return [Change.deletion left (← minus right left)] else pure [] :
        Checked (List Change)) =
      pure (if left < right then [Change.deletion left (right - left)] else []) := by
    intro left right
    by_cases hlt : left < right
    · rw [if_pos hlt, if_pos hlt, minus_eq (by omega), pure_bind]
    · rw [if_neg hlt, if_neg hlt]
  rw [split, innermost_eq hd, pure_bind, Document.split?]
  cases hlist : d.innermost? offset with
  | none => rfl
  | some list =>
    obtain ⟨hframed, hstop, -⟩ := framed_of_innermost? hd hlist
    have hbounds := hframed.inner_bounds
    have hclosing := hframed.closing_length
    dsimp only
    by_cases happlies : !list.isClosed
    · rw [if_pos happlies, if_pos happlies]
    · rw [if_neg happlies, if_neg happlies]
      have hcaret : ∀ cut, plus (leftEdge list cut) list.closing.length =
          pure (leftEdge list cut + list.closing.length) := by
        intro cut
        have hleft := leftEdge_bounds hframed cut
        exact plus_of_le (by omega) (by omega)
      simp only [cutAt_eq, leftOf_eq hframed hstop, rightOf_eq hframed, hgap, hcaret, pure_bind]
      rfl

theorem wrap_eq (ho : offset ≤ d.length) (o : Edit.Options) :
    wrap d offset o = pure (d.wrap? offset o) := by
  have hcaret : ∀ {start : Nat}, start ≤ d.length →
      plus start (o.delimiters.getD .parens).opening.length =
        pure (start + (o.delimiters.getD .parens).opening.length) := by
    intro start hstart
    refine plus_of_le (by omega) ?_
    cases o.delimiters.getD .parens <;> decide
  rw [wrap, Document.wrap?]
  dsimp only
  cases hregion : o.region? offset with
  | none =>
    have hform : ∀ {f : Form}, f ∈ (d.container offset).forms → f.start ≤ d.length :=
      fun hf => (Form.start_le_stop _).trans (Document.stop_le_of_mem_container hf)
    rewrite [container_eq hd, pure_bind]
    dsimp only
    cases hfind : (d.container offset).forms.find? fun f =>
        f.start ≤ offset && offset < f.stop with
    | some f => simp only [hcaret (hform (List.mem_of_find?_eq_some hfind)), pure_bind]
    | none =>
      cases hafter : Form.firstAfter? (d.container offset).forms offset with
      | some f => simp only [hcaret (hform (List.mem_of_find?_eq_some hafter)), pure_bind]
      | none => simp only [hcaret ho, pure_bind]
  | some region =>
    obtain ⟨other, -, hstart, -⟩ := Edit.Options.region?_eq_some hregion
    have hle : region.1 ≤ d.length := by omega
    simp only [isBalanced_eq hd, hcaret hle, pure_bind, ← apply_ite]

theorem transpose_eq : transpose d offset = pure (d.transpose? offset) := by
  rw [transpose, container_eq hd, pure_bind, Document.transpose?]
  cases hpair : Document.neighbours? (d.container offset).forms offset with
  | none => rfl
  | some pair =>
    obtain ⟨f, g⟩ := pair
    obtain ⟨hf, hg, -⟩ := Document.neighbours?_bounds hpair
    have hcontainer : Form.Placed d.tree (d.container offset) := Document.placed_container
    simp only [length_eq, text_eq (hcontainer.of_mem_forms hf),
      text_eq (hcontainer.of_mem_forms hg), pure_bind, Option.map_some]

end Reshaping

/-! ### Edits that take text away -/

section Removal

variable {d : Document} {offset : Nat}

theorem cutBetween_eq (start stop : Nat) :
    cutBetween start stop =
      pure (if start < stop then some ⟨[.deletion start (stop - start)], start⟩ else none) := by
  rw [cutBetween]
  by_cases hlt : start < stop
  · rw [if_pos hlt, if_pos hlt, minus_eq (by omega), pure_bind]
  · rw [if_neg hlt, if_neg hlt]

variable (hd : d.length ≤ maxText)
include hd

theorem killRegion_eq {start stop : Nat} (h : start < stop) :
    killRegion d start stop = pure (d.killRegion? start stop) := by
  rw [killRegion, isBalanced_eq hd, pure_bind, Document.killRegion?, minus_eq (by omega), pure_bind,
    ← apply_ite]

theorem kill_eq (o : Edit.Options) : kill d offset o = pure (d.kill? offset o) := by
  rw [kill, Document.kill?]
  cases hregion : o.region? offset with
  | some region =>
    obtain ⟨start, stop⟩ := region
    obtain ⟨-, -, -, -, hlt⟩ := Edit.Options.region?_eq_some hregion
    exact killRegion_eq hd hlt
  | none =>
    simp only [container_eq hd, pure_bind, cutBetween_eq]
    by_cases hback : o.backward
    · simp only [if_pos hback]
      cases hlast : ((d.container offset).forms.filter fun f => f.start < offset).getLast? with
      | none => rfl
      | some f =>
        have hle := f.start_le_stop
        have hstop := Document.stop_le_of_mem_container
          (List.mem_filter.mp (List.mem_of_getLast? hlast)).1
        have hnext : plus f.start 1 = _ := plus_of_le (by omega) (by decide)
        dsimp only
        rw [hnext, ← apply_ite, pure_bind]
    · simp only [if_neg hback]
      cases hnext : (d.container offset).forms.find? fun f => offset < f.stop with
      | none => rfl
      | some f =>
        have hlt := List.find?_some hnext
        rw [decide_eq_true_eq] at hlt
        dsimp only
        rw [minus_eq (show 1 ≤ f.stop by omega), ← apply_ite, pure_bind]

theorem spliceKill_eq (backward : Bool) :
    spliceKill d offset backward = pure (d.spliceKill? offset backward) := by
  rw [spliceKill, innermost_eq hd, pure_bind, Document.spliceKill?]
  cases hlist : d.innermost? offset with
  | none => rfl
  | some list =>
    obtain ⟨hframed, hstop, hoffset⟩ := framed_of_innermost? hd hlist
    have hstart := hframed.innerStart_eq
    have hbounds := hframed.inner_bounds
    have hopening := hframed.opening_length
    dsimp only [Option.map_some]
    cases backward with
    | true =>
      have hright : list.start ≤
          if (Form.around? list.forms offset).isSome then offset
          else match Form.firstAfter? list.forms offset with
            | some f => f.start
            | none => list.innerStop := by
        split
        · omega
        · split
          · rename_i f hf
            have hin := hframed.bounds_of_mem (List.mem_of_find?_eq_some hf)
            omega
          · omega
      simp only [if_true, rightOf_eq hframed, uncloseChanges_eq hframed, ← apply_ite, pure_bind,
        minus_eq hright]
      rfl
    | false =>
      have hcut : list.start + 1 ≤
          (if (Form.around? list.forms offset).isSome then offset else leftEdge list offset) ∧
          (if (Form.around? list.forms offset).isSome then offset else leftEdge list offset) ≤
            list.innerStop := by
        split
        · exact hoffset
        · exact leftEdge_bounds hframed offset
      simp only [Bool.false_eq_true, if_false, leftOf_eq hframed hstop, ← apply_ite, pure_bind]
      rw [minus_eq (by omega), pure_bind, minus_eq (by omega), pure_bind]
      rfl

theorem delimiterFate_eq (offset : Nat) :
    delimiterFate d offset = pure (d.delimiterFate? offset) := by
  rw [delimiterFate, Document.delimiterFate?]
  cases hleaf : d.leafAt? offset with
  | none => rfl
  | some leaf =>
    dsimp only
    by_cases hdelim : leaf.kind.isOpener || leaf.kind.isCloser
    · rw [if_pos hdelim, if_pos hdelim]
      cases hlist : leaf.parent?.filter Form.isCollection with
      | none => rfl
      | some list =>
        obtain ⟨p, x, y, hp, hparent, -⟩ :=
          Document.exists_parent_of_mem (List.mem_of_find?_eq_some hleaf)
        obtain ⟨hlist, hk⟩ := Option.filter_eq_some_iff.mp hlist
        obtain rfl := Option.some.inj (hparent.symm.trans hlist)
        have hstop := hp.stop_le
        simp only [innerStart_eq (hp.framed hk) (hstop.trans hd), innerStop_eq (hp.framed hk),
          length_eq, pure_bind, ← apply_ite]
    · rw [if_neg hdelim, if_neg hdelim]

theorem removeAt_eq {pos : Nat} (hpos : pos < d.length) (aside : Kind → Nat)
    {escape : Leaf → Checked (Option Nat)} {plain : Leaf → Option Nat}
    (hescape : ∀ s, d.stringAt? pos = some s → escape s = pure (plain s)) :
    removeAt d pos aside escape = pure (d.removeAt pos aside plain) := by
  have hnext : plus pos 1 = _ := plus_of_le (by omega) (by decide)
  rw [removeAt, Document.removeAt, delimiterFate_eq hd, pure_bind]
  cases d.delimiterFate? pos with
  | some found =>
    obtain ⟨k, fate⟩ := found
    cases fate <;> rfl
  | none =>
    dsimp only
    cases hstring : d.stringAt? pos with
    | none => rfl
    | some s =>
      obtain ⟨-, -, hge, hlt⟩ := Document.stringAt?_eq_some hstring
      simp only [minus_eq (show s.start ≤ s.stop by omega), minus_eq (show 1 ≤ s.stop by omega),
        hnext, hescape s hstring, pure_bind]
      cases plain s <;> simp only [← apply_ite]

theorem deleteForward_eq : deleteForward d offset = pure (d.deleteForward? offset) := by
  rw [deleteForward, Document.deleteForward?]
  by_cases hend : d.length ≤ offset
  · rw [if_pos hend, if_pos hend]
  · have hnext : plus offset 1 = _ := plus_of_le (by omega) (by decide)
    rw [if_neg hend, if_neg hend, hnext, pure_bind,
      removeAt_eq hd (by omega) _ fun s _ => rfl, pure_bind]

theorem deleteBackward_eq : deleteBackward d offset = pure (d.deleteBackward? offset) := by
  rw [deleteBackward, Document.deleteBackward?]
  by_cases hend : offset = 0 || d.length < offset
  · rw [if_pos hend, if_pos hend]
  · have hin : 1 ≤ offset ∧ offset ≤ d.length := by
      rw [Bool.or_eq_true, not_or, decide_eq_true_eq, decide_eq_true_eq] at hend
      omega
    rw [if_neg hend, if_neg hend, minus_eq hin.1, pure_bind]
    dsimp only
    rw [removeAt_eq hd (by omega) _ fun s hstring => ?_, pure_bind]
    obtain ⟨-, -, hge, hlt⟩ := Document.stringAt?_eq_some hstring
    have hnext : plus s.start 1 = _ := plus_of_le (by omega) (by decide)
    rw [hnext, pure_bind]
    by_cases hescape : s.start + 1 < offset - 1
    · rw [if_pos hescape, minus_eq (show 1 ≤ offset - 1 by omega), pure_bind]
      simp only [hescape, decide_true, Bool.true_and, decide_eq_true_eq]
    · rw [if_neg hescape]
      simp only [hescape, decide_false, Bool.false_and, Bool.false_eq_true, if_false]

theorem delete_eq (o : Edit.Options) : delete d offset o = pure (d.delete? offset o) := by
  rw [delete, Document.delete?]
  cases hregion : o.region? offset with
  | some region =>
    obtain ⟨start, stop⟩ := region
    obtain ⟨-, -, -, -, hlt⟩ := Edit.Options.region?_eq_some hregion
    exact killRegion_eq hd hlt
  | none =>
    dsimp only
    rw [deleteForward_eq hd, deleteBackward_eq hd, ← apply_ite]

end Removal

/-- **In a document of at most `maxText` characters, a structural edit never faults.** -/
theorem edit_eq (e : StructuralEdit) {d : Document} {offset : Nat} (hd : d.length ≤ maxText)
    (ho : offset ≤ d.length) (o : Edit.Options) : edit e d offset o = pure (e.at? d offset o) := by
  cases e with
  | slurp => exact slurp_eq hd _
  | barf => exact barf_eq hd _
  | splice => exact splice_eq hd
  | split => exact split_eq hd
  | kill => exact kill_eq hd _
  | spliceKill => exact spliceKill_eq hd _
  | delete => exact delete_eq hd _
  | wrap => exact wrap_eq hd ho _
  | transpose => exact transpose_eq hd

end Checked

end SexpEdit
