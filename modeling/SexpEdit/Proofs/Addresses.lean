/-
Characters and bytes.

The outline of a tree gives its elements the bytes they cover, in preorder.  Forms and tokens in
place count characters, and so does everything built on them.  The two belong to the same pieces of
text: each element of the outline starts and ends between characters, and going over from bytes to
characters, or back, leads from one of its places to the other and never rounds.

* `Document.charOffset_byteOffset` — from characters to bytes and back;
* `Tree.aligned_outline` — the elements of an outline, one by one with the forms and tokens in place;
* `Document.addresses_exact` — every element stands where its character range says.
-/
import Mathlib.Data.List.Forall2
import SexpEdit.Proofs.Leaves
import SexpEdit.Proofs.Slices

namespace SexpEdit

open SexpEdit.Tree Text
open Token (scan widthOf)

/-! ### There and back -/

/-- In the table `byteStarts` as many entries are less than that of a character as there are
characters before it. -/
theorem Text.length_takeWhile_byteStarts {start i : Nat} {cs : List Char} (h : i ≤ cs.length) :
    ((byteStarts start cs).takeWhile (· < start + byteLength (cs.take i))).length = i := by
  induction cs generalizing start i with
  | nil =>
    obtain rfl := Nat.le_zero.mp h
    rw [byteStarts, List.take_nil, byteLength, List.takeWhile_cons_of_neg (by simp)]
    rfl
  | cons c cs ih =>
    have hpos := c.utf8Size_pos
    cases i with
    | zero =>
      rw [byteStarts, List.take_zero, byteLength, List.takeWhile_cons_of_neg (by simp)]
      rfl
    | succ i =>
      have hlt : start < start + (c.utf8Size + byteLength (cs.take i)) := by omega
      rw [byteStarts, List.take_succ_cons, byteLength,
        List.takeWhile_cons_of_pos (by exact decide_eq_true hlt), List.length_cons,
        ← Nat.add_assoc, ih (Nat.le_of_succ_le_succ h)]

namespace Document

/-- **From characters to bytes and back**: `charOffset` undoes `byteOffset`. -/
theorem charOffset_byteOffset (d : Document) {offset : Nat} (h : offset ≤ d.length) :
    d.charOffset (d.byteOffset offset) = offset := by
  have hcount := @length_takeWhile_byteStarts 0 offset d.text h
  rw [Nat.zero_add, ← byteOffset_eq] at hcount
  exact hcount

theorem byteOffset_le (d : Document) {i j : Nat} (h : i ≤ j) : d.byteOffset i ≤ d.byteOffset j := by
  rw [byteOffset_eq, byteOffset_eq]
  exact byteLength_take_le h

theorem byteOffset_lt (d : Document) {i j : Nat} (h : i < j) (hj : j ≤ d.length) :
    d.byteOffset i < d.byteOffset j := by
  rw [byteOffset_eq, byteOffset_eq]
  exact byteLength_take_lt h (Nat.lt_of_lt_of_le h hj)

/-- The `byteOffset` of a character is a valid position of the encoded text. -/
theorem isValid_byteOffset (d : Document) (offset : Nat) :
    String.Pos.Raw.IsValid (String.ofList d.text) ⟨d.byteOffset offset⟩ := by
  refine String.Pos.Raw.isValid_ofList.mpr ⟨offset, ?_⟩
  rw [byteOffset_eq, ← size_utf8Encode]
  rfl

/-! ### Elements in their places -/

/-- An entry of the outline and a range of characters are the same piece of the text: the entry
starts and ends between characters, its bytes and the characters lead to one another, and the text
cut out there is `own`. -/
structure Locates (d : Document) (e : Tree.Entry) (start stop : Nat) (own : List Char) : Prop where
  isValid_start : String.Pos.Raw.IsValid (String.ofList d.text) ⟨e.start⟩
  isValid_stop : String.Pos.Raw.IsValid (String.ofList d.text) ⟨e.stop⟩
  charOffset_start : d.charOffset e.start = start
  charOffset_stop : d.charOffset e.stop = stop
  byteOffset_start : d.byteOffset start = e.start
  byteOffset_stop : d.byteOffset stop = e.stop
  slice?_eq : d.slice? start stop = some own

end Document

/-- The entry `e` and the characters from `start` to `stop` come from one split of the text `cs`. -/
def Tree.Entry.Covers (cs : List Char) (e : Tree.Entry) (start stop : Nat) (own : List Char) : Prop :=
  ∃ before after, cs = before ++ (own ++ after) ∧ start = before.length ∧
    stop = start + own.length ∧ e.start = byteLength before ∧ e.stop = e.start + byteLength own

/-- What one split of the text gives is the same piece of the text: `Covers` gives `Locates`. -/
theorem Tree.Entry.Covers.locates {d : Document} {e : Tree.Entry} {start stop : Nat}
    {own : List Char} (h : e.Covers d.text start stop own) : d.Locates e start stop own := by
  obtain ⟨before, after, htext, rfl, rfl, hestart, hestop⟩ := h
  have htake : d.text.take before.length = before := by rw [htext, List.take_left]
  have htake' : d.text.take (before.length + own.length) = before ++ own := by
    rw [htext, ← List.append_assoc, ← List.length_append, List.take_left]
  have hlength : before.length + own.length ≤ d.length := by
    rw [Document.length, htext, List.length_append, List.length_append]
    omega
  have hstart : d.byteOffset before.length = e.start := by
    rw [Document.byteOffset_eq, htake, hestart]
  have hstop : d.byteOffset (before.length + own.length) = e.stop := by
    rw [Document.byteOffset_eq, htake', byteLength_append, hestop, hestart]
  have hslice : slice d.text before.length (before.length + own.length) = own := by
    rw [slice, htake', List.drop_left]
  exact
    { isValid_start := by
        rw [← hstart]
        exact d.isValid_byteOffset before.length
      isValid_stop := by
        rw [← hstop]
        exact d.isValid_byteOffset (before.length + own.length)
      charOffset_start := by
        rw [← hstart]
        exact d.charOffset_byteOffset (by omega)
      charOffset_stop := by
        rw [← hstop]
        exact d.charOffset_byteOffset hlength
      byteOffset_start := hstart
      byteOffset_stop := hstop
      slice?_eq := by
        rw [d.slice?_of_le (Nat.le_add_right _ _), hslice] }

namespace Tree

mutual

theorem byteWidth_eq : ∀ t : Tree, t.byteWidth = byteLength t.text
  | leaf t => by rw [byteWidth, text, leaves, List.flatMap_singleton]
  | node _ ts => rowByteWidth_eq ts

theorem rowByteWidth_eq : ∀ ts : List Tree,
    rowByteWidth ts = byteLength ((rowLeaves ts).flatMap Token.text)
  | [] => rfl
  | t :: ts => by
    rw [rowByteWidth, rowLeaves, List.flatMap_append, byteLength_append, byteWidth_eq t,
      rowByteWidth_eq ts, text]

end

/-- The entries `es` of an outline go one by one with the nodes and with the tokens in place. -/
structure Aligned (cs : List Char) (es : List Entry) (fs : List Form) (ls : List Leaf) : Prop where
  nodes : List.Forall₂ (fun e f => e.kind = f.kind ∧ e.Covers cs f.start f.stop f.text)
    (es.filter (·.text.isNone)) fs
  tokens : List.Forall₂ (fun e l => (e.kind = l.kind ∧ e.text = some l.token.text) ∧
    e.Covers cs l.start l.stop l.token.text) (es.filter (·.text.isSome)) ls

theorem Aligned.append {cs : List Char} {es es' : List Entry} {fs fs' : List Form}
    {ls ls' : List Leaf} (h : Aligned cs es fs ls) (h' : Aligned cs es' fs' ls') :
    Aligned cs (es ++ es') (fs ++ fs') (ls ++ ls') := by
  constructor
  · rw [List.filter_append]
    exact List.rel_append h.nodes h'.nodes
  · rw [List.filter_append]
    exact List.rel_append h.tokens h'.tokens

-- The induction is on the tree, with what stands before it in the text: the outline counts the bytes
-- of that, and the nodes and tokens in place count its characters.
mutual

/-- **The `outline` of a tree is `Aligned`** with its nodes and tokens in place. -/
theorem aligned_outline {cs : List Char} : ∀ (t : Tree) (depth : Nat) (around : List Site)
    (before after : List Char), cs = before ++ (t.text ++ after) →
      Aligned cs (t.outline depth (byteLength before)) (Form.within around before.length t)
        (Leaf.within around before.length t)
  | leaf t, depth, around, before, after, h => by
    rw [text, leaves, List.flatMap_singleton] at h
    exact ⟨.nil, .cons ⟨⟨rfl, rfl⟩, before, after, h, rfl, rfl, rfl, rfl⟩ .nil⟩
  | node k ts, depth, around, before, after, h => by
    have hrow := aligned_rowOutline ts (depth + 1) (Site.ofNode k before.length ts :: around)
      before after h
    refine ⟨.cons ⟨rfl, before, after, h, rfl, ?_, rfl, ?_⟩ hrow.nodes, hrow.tokens⟩
    · show before.length + rowWidth ts = _
      rw [rowWidth_eq]
      rfl
    · show byteLength before + rowByteWidth ts = _
      rw [rowByteWidth_eq]
      rfl

theorem aligned_rowOutline {cs : List Char} : ∀ (ts : List Tree) (depth : Nat)
    (around : List Site) (before after : List Char),
      cs = before ++ ((rowLeaves ts).flatMap Token.text ++ after) →
      Aligned cs (rowOutline depth (byteLength before) ts)
        (Form.rowWithin around before.length ts) (Leaf.rowWithin around before.length ts)
  | [], _, _, _, _, _ => ⟨.nil, .nil⟩
  | t :: ts, depth, around, before, after, h => by
    rw [rowLeaves, List.flatMap_append, List.append_assoc] at h
    have hfirst := aligned_outline t depth around before _ h
    have hsplit : cs = before ++ t.text ++ ((rowLeaves ts).flatMap Token.text ++ after) := by
      rw [h, List.append_assoc]
      rfl
    have hrest := aligned_rowOutline ts depth around (before ++ t.text) after hsplit
    rw [byteLength_append, ← byteWidth_eq, List.length_append, text, ← width_eq] at hrest
    exact hfirst.append hrest

end

end Tree

namespace Document

/-- The nodes of a document with the bytes they cover, in preorder. -/
def nodeEntries (d : Document) : List Tree.Entry :=
  (d.tree.outline 0 0).filter (·.text.isNone)

/-- The tokens of a document with the bytes they cover. -/
def tokenEntries (d : Document) : List Tree.Entry :=
  (d.tree.outline 0 0).filter (·.text.isSome)

theorem text_tree (d : Document) : d.tree.text = d.text := by
  rw [Tree.text, leaves_tree, Token.scan_text]

theorem aligned (d : Document) : Aligned d.text (d.tree.outline 0 0) d.nodes d.leaves := by
  rw [d.nodes_eq, d.leaves_eq]
  refine aligned_outline d.tree 0 [] [] [] ?_
  rw [List.nil_append, List.append_nil, text_tree]

/-- Each character is in a token, the one that `leafAt?` finds. -/
theorem exists_leafAt? (d : Document) {offset : Nat} (h : offset < d.length) :
    ∃ l ∈ d.leaves, d.leafAt? offset = some l ∧ l.start ≤ offset ∧ offset < l.stop := by
  have hwidth : offset < widthOf (scan d.text) := by rwa [Token.widthOf_scan]
  obtain ⟨ts, t, us, hscan, hle, hlt⟩ := Token.exists_token_at hwidth
  obtain ⟨l, hl, hat, rfl, hstart⟩ := leafAt?_of_split hscan hle hlt
  refine ⟨l, hl, hat, ?_, ?_⟩
  · rwa [hstart]
  · rwa [Leaf.stop, hstart]

/-- **Characters address a text exactly.** The `byteOffset`s grow with character offsets up to the
end of the text, and lead back to them. The nodes and the tokens of the tree, in bytes, go one by
one with the nodes and the tokens in place, in characters: each starts and ends between characters,
and the text cut out by its character range is its own. And every character is found in a token,
which covers the bytes of the character. -/
theorem addresses_exact (d : Document) :
    (∀ i j, i < j → j ≤ d.length → d.byteOffset i < d.byteOffset j) ∧
      (∀ offset ≤ d.length, d.charOffset (d.byteOffset offset) = offset) ∧
      List.Forall₂ (fun e f => e.kind = f.kind ∧ d.Locates e f.start f.stop f.text)
        d.nodeEntries d.nodes ∧
      List.Forall₂ (fun e l => (e.kind = l.kind ∧ e.text = some l.token.text) ∧
        d.Locates e l.start l.stop l.token.text) d.tokenEntries d.leaves ∧
      ∀ offset < d.length, ∃ l ∈ d.leaves, d.leafAt? offset = some l ∧
        (l.start ≤ offset ∧ offset < l.stop) ∧
        ∃ e ∈ d.tokenEntries, d.Locates e l.start l.stop l.token.text ∧
          e.start ≤ d.byteOffset offset ∧ d.byteOffset (offset + 1) ≤ e.stop := by
  have hnodes := d.aligned.nodes.imp fun e f h => And.imp_right Tree.Entry.Covers.locates h
  have htokens := d.aligned.tokens.imp fun e l h => And.imp_right Tree.Entry.Covers.locates h
  refine ⟨fun i j h hj => d.byteOffset_lt h hj, fun offset h => d.charOffset_byteOffset h, hnodes,
    htokens, ?_⟩
  intro offset h
  obtain ⟨l, hl, hat, hle, hlt⟩ := d.exists_leafAt? h
  have hentry : ∃ e ∈ d.tokenEntries, d.Locates e l.start l.stop l.token.text := by
    obtain ⟨i, hi, hget⟩ := List.getElem_of_mem hl
    have hi' : i < d.tokenEntries.length := Nat.lt_of_lt_of_eq hi htokens.length_eq.symm
    refine ⟨d.tokenEntries[i], List.getElem_mem hi', ?_⟩
    rw [← hget]
    exact (htokens.get hi' hi).2
  obtain ⟨e, he, hlocates⟩ := hentry
  refine ⟨l, hl, hat, ⟨hle, hlt⟩, e, he, hlocates, ?_, ?_⟩
  · rw [← hlocates.byteOffset_start]
    exact d.byteOffset_le hle
  · rw [← hlocates.byteOffset_stop]
    exact d.byteOffset_le hlt

/-- Characters of one, two and four bytes. -/
theorem addresses_exact_multibyte :
    let d := ofText "(λ 😀)".toList
    d.length = 5 ∧ d.byteOffset 3 = 4 ∧ d.byteOffset 4 = 8 ∧ d.byteOffset 3 < d.byteOffset 4 ∧
      d.charOffset 8 = 4 ∧ ∃ l ∈ d.leaves, d.leafAt? 3 = some l ∧ l.start ≤ 3 ∧ 3 < l.stop := by
  intro d
  obtain ⟨hlt, hback, -, -, hat⟩ := addresses_exact d
  have hlength : d.length = 5 := rfl
  have hstart : d.byteOffset 3 = 4 := by decide +kernel
  have hstop : d.byteOffset 4 = 8 := by decide +kernel
  have hfour := hback 4 (by rw [hlength]; decide)
  rw [hstop] at hfour
  obtain ⟨l, hl, hleaf, ⟨hle, hlt'⟩, -⟩ := hat 3 (by rw [hlength]; decide)
  exact ⟨hlength, hstart, hstop, hlt 3 4 (by decide) (by rw [hlength]; decide), hfour, l, hl, hleaf,
    hle, hlt'⟩

end Document

end SexpEdit
