/-
Cutting a text by bytes.

A buffer and a document both cut at bytes, and they find the bytes in different ways: a buffer goes
through the characters up to an offset, a document looks the offset up in its table.  Either way the
byte offset is the byte length of the characters before it, so it is never inside a character.  A
host behind a gate counts characters instead.  The three give the same text.

* `Text.splitByte?_eq_some_iff` — a text is parted at a byte offset when a part of it has that many
  bytes;
* `Text.byteSlice?_take` — cutting at the bytes of two offsets gives the characters between them;
* `Text.byteOffset_eq`, `Document.byteOffset_eq` — both ways to the byte offset agree;
* `Host.slices_agree` — so all ways of cutting a text agree.
-/
import SexpEdit.Host
import SexpEdit.Proofs.Scan

namespace SexpEdit

namespace Text

/-! ### Byte offsets -/

theorem getElem?_charStarts {start i : Nat} {cs : List Char} (h : i < cs.length) :
    (charStarts start cs)[i]? = some (start + byteLength (cs.take i)) := by
  induction cs generalizing start i with
  | nil => cases h
  | cons c cs ih =>
    rw [charStarts]
    cases i with
    | zero => rfl
    | succ i =>
      rw [List.getElem?_cons_succ, ih (Nat.lt_of_succ_lt_succ h), List.take_succ_cons, byteLength,
        Nat.add_assoc]

theorem length_charStarts (start : Nat) (cs : List Char) :
    (charStarts start cs).length = cs.length := by
  induction cs generalizing start with
  | nil => rfl
  | cons c cs ih => rw [charStarts, List.length_cons, ih, List.length_cons]

/-- The table `byteStarts` of a text: the characters, and the end. -/
theorem byteStarts_eq (start : Nat) (cs : List Char) :
    byteStarts start cs = charStarts start cs ++ [start + byteLength cs] := by
  induction cs generalizing start with
  | nil => rfl
  | cons c cs ih => rw [byteStarts, ih, charStarts, byteLength, Nat.add_assoc, List.cons_append]

theorem getElem?_byteStarts {start i : Nat} {cs : List Char} (h : i ≤ cs.length) :
    (byteStarts start cs)[i]? = some (start + byteLength (cs.take i)) := by
  rw [byteStarts_eq]
  rcases Nat.lt_or_eq_of_le h with hlt | rfl
  · rw [List.getElem?_append_left (by rwa [length_charStarts]), getElem?_charStarts hlt]
  · rw [List.getElem?_append_right (Nat.le_of_eq (length_charStarts start cs)), length_charStarts,
      Nat.sub_self, List.take_length]
    rfl

/-- The `byteOffset` of a character is the `byteLength` of the characters before it. -/
theorem byteOffset_eq (cs : List Char) (offset : Nat) :
    byteOffset cs offset = byteLength (cs.take offset) := by
  rw [byteOffset]
  rcases Nat.lt_or_ge offset cs.length with hlt | hge
  · rw [getElem?_charStarts hlt, Option.getD_some, Nat.zero_add]
  · rw [List.getElem?_eq_none (by rwa [length_charStarts]), Option.getD_none,
      List.take_of_length_le hge]

theorem take_append_slice_eq_take {cs : List Char} {start stop : Nat} (h : start ≤ stop) :
    cs.take start ++ slice cs start stop = cs.take stop := by
  have htake : cs.take start = (cs.take stop).take start := by
    rw [List.take_take, Nat.min_eq_left h]
  rw [slice, htake, List.take_append_drop]

/-- A `slice` put between what is before and after it makes the text whole again. -/
theorem take_append_slice {cs : List Char} {start stop : Nat} (h : start ≤ stop) :
    cs.take start ++ (slice cs start stop ++ cs.drop stop) = cs := by
  rw [← List.append_assoc, take_append_slice_eq_take h, List.take_append_drop]

theorem slice_append_drop {cs : List Char} {start stop : Nat} (h : start ≤ stop) :
    slice cs start stop ++ cs.drop stop = cs.drop start := by
  have hdrop : cs.drop stop = (cs.drop start).drop (stop - start) := by
    rw [List.drop_drop, Nat.add_sub_cancel' h]
  rw [slice, List.drop_take, hdrop, List.take_append_drop]

theorem slice_append_slice {cs : List Char} {i j k : Nat} (hij : i ≤ j) (hjk : j ≤ k) :
    slice cs i j ++ slice cs j k = slice cs i k := by
  have htake : cs.take j = (cs.take k).take j := by
    rw [List.take_take, Nat.min_eq_left hjk]
  rw [slice, htake]
  exact slice_append_drop hij

/-- Between two offsets stand the bytes of the characters between them. -/
theorem byteLength_take_add {cs : List Char} {i j : Nat} (h : i ≤ j) :
    byteLength (cs.take i) + byteLength (slice cs i j) = byteLength (cs.take j) := by
  rw [← byteLength_append, take_append_slice_eq_take h]

theorem byteLength_take_le {cs : List Char} {i j : Nat} (h : i ≤ j) :
    byteLength (cs.take i) ≤ byteLength (cs.take j) := by
  rw [← byteLength_take_add h]
  exact Nat.le_add_right _ _

theorem byteLength_take_lt {cs : List Char} {i j : Nat} (h : i < j) (hi : i < cs.length) :
    byteLength (cs.take i) < byteLength (cs.take j) := by
  rw [← byteLength_take_add (Nat.le_of_lt h)]
  refine Nat.lt_add_of_pos_right (byteLength_pos ?_)
  rw [slice, ne_eq, List.drop_eq_nil_iff, List.length_take]
  omega

/-! ### Parting and cutting -/

/-- **A text is parted at a byte offset** into a part of `n` bytes and the rest. -/
theorem splitByte?_eq_some_iff {cs before after : List Char} {n : Nat} :
    splitByte? cs n = some (before, after) ↔ cs = before ++ after ∧ byteLength before = n := by
  constructor
  · intro h
    induction cs generalizing n before with
    | nil =>
      cases n with
      | zero =>
        obtain ⟨rfl, rfl⟩ := Prod.mk.inj (Option.some.inj h)
        exact ⟨rfl, rfl⟩
      | succ n => cases h
    | cons c cs ih =>
      cases n with
      | zero =>
        obtain ⟨rfl, rfl⟩ := Prod.mk.inj (Option.some.inj h)
        exact ⟨rfl, rfl⟩
      | succ n =>
        rw [splitByte?] at h
        split at h
        · rename_i hle
          cases hrest : splitByte? cs (n + 1 - c.utf8Size) with
          | none =>
            rw [hrest] at h
            cases h
          | some parts =>
            rw [hrest] at h
            obtain ⟨rfl, rfl⟩ := Prod.mk.inj (Option.some.inj h)
            obtain ⟨rfl, hbytes⟩ := ih hrest
            refine ⟨rfl, ?_⟩
            rw [byteLength, hbytes]
            omega
        · cases h
  · rintro ⟨rfl, rfl⟩
    induction before with
    | nil => rw [byteLength, splitByte?, List.nil_append]
    | cons c before ih =>
      have hpos := c.utf8Size_pos
      obtain ⟨n, hn⟩ : ∃ n, byteLength (c :: before) = n + 1 :=
        Nat.exists_eq_add_one_of_ne_zero (Nat.ne_of_gt (byteLength_pos (List.cons_ne_nil c before)))
      have hrest : n + 1 - c.utf8Size = byteLength before := by
        rw [byteLength] at hn
        omega
      rw [hn, List.cons_append, splitByte?, if_pos (by rw [byteLength] at hn; omega), hrest, ih]

/-- Cutting by `byteSlice?` at the bytes around a part of a text gives that part. -/
theorem byteSlice?_append (before inside after : List Char) :
    byteSlice? (before ++ (inside ++ after)) (byteLength before)
      (byteLength before + byteLength inside) = some inside := by
  have hstart : splitByte? (before ++ (inside ++ after)) (byteLength before) =
      some (before, inside ++ after) := splitByte?_eq_some_iff.mpr ⟨rfl, rfl⟩
  have hstop : splitByte? (inside ++ after) (byteLength inside) = some (inside, after) :=
    splitByte?_eq_some_iff.mpr ⟨rfl, rfl⟩
  rw [byteSlice?, if_pos (Nat.le_add_right _ _), hstart]
  dsimp only
  rw [Nat.add_sub_cancel_left, hstop]

/-- **Cutting at the bytes of two offsets gives the characters between them**: `byteSlice?` gives
the `slice`. -/
theorem byteSlice?_take (cs : List Char) {i j : Nat} (h : i ≤ j) :
    byteSlice? cs (byteLength (cs.take i)) (byteLength (cs.take j)) = some (slice cs i j) := by
  have hcut := byteSlice?_append (cs.take i) (slice cs i j) (cs.drop j)
  rwa [take_append_slice h, byteLength_take_add h] at hcut

theorem slice_eq_nil_of_le {cs : List Char} {start stop : Nat} (h : stop ≤ start) :
    slice cs start stop = [] := by
  rw [slice, List.drop_eq_nil_iff, List.length_take]
  omega

end Text

open Text

/-! ### Documents, buffers and hosts -/

namespace Document

/-- The table of a document gives the `byteLength` of the characters before an offset. -/
theorem byteOffset_eq (d : Document) (offset : Nat) :
    d.byteOffset offset = byteLength (d.text.take offset) := by
  have htake : d.text.take (min offset d.text.length) = d.text.take offset := by
    rw [← List.take_take, List.take_length]
  have hentry : (byteStarts 0 d.text)[min offset d.text.length]? =
      some (byteLength (d.text.take offset)) := by
    rw [getElem?_byteStarts (Nat.min_le_right offset d.text.length), htake, Nat.zero_add]
  rw [byteOffset, List.get_eq_getElem]
  exact (List.getElem_eq_iff _).mpr hentry

theorem slice?_of_le (d : Document) {start stop : Nat} (h : start ≤ stop) :
    d.slice? start stop = some (slice d.text start stop) := by
  rw [slice?, byteOffset_eq, byteOffset_eq, byteSlice?_take d.text h]

/-- A document refuses to cut only when `stop` comes before `start` and before the end of the
text. -/
theorem slice?_eq_none_iff (d : Document) {start stop : Nat} :
    d.slice? start stop = none ↔ stop < start ∧ stop < d.length := by
  constructor
  · intro hnone
    rcases Nat.lt_or_ge stop start with hlt | hge
    · refine ⟨hlt, Nat.lt_of_not_ge fun hlength => ?_⟩
      -- both offsets stand for the end of the text then, and nothing is between them
      have htake : d.text.take start = d.text.take stop := by
        rw [List.take_of_length_le hlength,
          List.take_of_length_le (Nat.le_trans hlength (Nat.le_of_lt hlt))]
      rw [slice?, byteOffset_eq, byteOffset_eq, htake,
        byteSlice?_take d.text (Nat.le_refl stop)] at hnone
      cases hnone
    · rw [slice?_of_le d hge] at hnone
      cases hnone
  · rintro ⟨hlt, hlength⟩
    have hbytes := byteLength_take_lt hlt hlength
    rw [slice?, byteOffset_eq, byteOffset_eq, byteSlice?, if_neg (Nat.not_le.mpr hbytes)]

end Document

namespace Buffer

/-- A buffer can always cut its text: `slice?` gives the `Text.slice`. -/
theorem slice?_eq (b : Buffer) (start stop : Nat) :
    b.slice? start stop = some (Text.slice b.text start stop) := by
  rw [slice?, byteOffset_eq, byteOffset_eq]
  rcases Nat.le_total start stop with hle | hle
  · rw [Nat.max_eq_left (byteLength_take_le hle), byteSlice?_take b.text hle]
  · -- the end is moved up to the start, and nothing is cut out
    rw [Nat.max_eq_right (byteLength_take_le hle), byteSlice?_take b.text (Nat.le_refl start),
      slice_eq_nil_of_le hle, slice_eq_nil_of_le (Nat.le_refl start)]

theorem slice_eq (b : Buffer) (start stop : Nat) :
    b.slice start stop = Text.slice b.text start stop := by
  rw [slice, slice?_eq, Option.getD_some]

end Buffer

namespace Host

/-- With a gate or without one, a host cuts its text the same way, by `Text.slice`. -/
theorem slice_eq (h : Host) (start stop : Nat) :
    h.slice start stop = Text.slice h.text start stop := by
  rw [slice]
  split
  · exact h.buffer.slice_eq start stop
  · rw [Text.slice, List.drop_take]
    rfl

/-- **All ways of cutting a text agree.**  A buffer cuts by bytes and never fails to; what it gives is
what a host behind a gate reads off by counting characters, for any two offsets, in either order and
past the end too.  The document of the text gives the same when the offsets are in order; when they
are not, it gives nothing if the second is before the end of the text. -/
theorem slices_agree (b : Buffer) (g : Gate) (calls start stop : Nat) :
    let gated : Host := { buffer := b, gate := some g, calls }
    b.slice? start stop = some (gated.slice start stop) ∧
      (ofBuffer b).slice start stop = gated.slice start stop ∧
      (start ≤ stop →
        (Document.ofText b.text).slice? start stop = some (gated.slice start stop)) ∧
      ((Document.ofText b.text).slice? start stop = none ↔ stop < start ∧ stop < b.length) := by
  intro gated
  rw [slice_eq, slice_eq]
  refine ⟨b.slice?_eq start stop, rfl, ?_, Document.slice?_eq_none_iff _⟩
  intro hle
  exact Document.slice?_of_le (.ofText b.text) hle

/-- Letters of two bytes, cut out from both sides. -/
theorem slices_agree_multibyte :
    let b := Buffer.ofText "clojure" "(λ é)".toList
    b.slice? 1 4 = some "λ é".toList ∧
      (Document.ofText b.text).slice? 1 4 = some "λ é".toList ∧
      b.slice? 4 1 = some [] ∧ (Document.ofText b.text).slice? 4 1 = none := by
  intro b
  obtain ⟨hbuffer, -, hdocument, -⟩ := slices_agree b ⟨fun _ _ => .pass⟩ 0 1 4
  obtain ⟨hreversed, -, -, hnone⟩ := slices_agree b ⟨fun _ _ => .pass⟩ 0 4 1
  exact ⟨hbuffer, hdocument (by decide), hreversed, hnone.mpr (by decide)⟩

end Host

end SexpEdit
