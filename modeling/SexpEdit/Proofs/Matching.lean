/-
Delimiter tokens and the collections they delimit.

The grammar recovers from errors: a closer that fits no open collection becomes a node of its own, and
a collection that lacks its closer ends with the text.  Neither happens in a text whose delimiter
tokens nest, as a word of its own and before any tree is built, and in no other text.  There the
collections are the pairs of that word.

* `Token.delimiters` — the delimiter tokens of a text, in place;
* `Form.ends` — where the first and the last token of a node are;
* `Document.collections_match_delimiters` — collections are the pairs of delimiters that nest.
-/
import SexpEdit.Proofs.Adoption
import SexpEdit.Proofs.Regions
import SexpEdit.Proofs.Removal

namespace SexpEdit

open SexpEdit.Tree
open Token (scan)

/-! ### Tokens in place -/

namespace Token

/-- Tokens in place, when the first of them starts at `start`. No tree is around them. -/
def inPlace (start : Nat) : List Token → List Leaf
  | [] => []
  | t :: ts => ⟨t, start, []⟩ :: inPlace (start + t.text.length) ts

/-- The delimiters among the tokens `ts`, in place. -/
def delimiters (start : Nat) (ts : List Token) : List Leaf :=
  (inPlace start ts).filter fun l => l.kind.isOpener || l.kind.isCloser

theorem inPlace_append (ts us : List Token) (start : Nat) :
    inPlace start (ts ++ us) = inPlace start ts ++ inPlace (start + widthOf ts) us := by
  induction ts generalizing start with
  | nil => rfl
  | cons t ts ih => rw [List.cons_append, inPlace, inPlace, ih, widthOf_cons, Nat.add_assoc]; rfl

theorem map_kind_delimiters (ts : List Token) (start : Nat) :
    (delimiters start ts).map Leaf.kind = ts.flatMap (·.kind.delimiters) := by
  induction ts generalizing start with
  | nil => rfl
  | cons t ts ih =>
    by_cases hk : t.kind.isOpener || t.kind.isCloser
    · have hword : delimiters start (t :: ts) =
          ⟨t, start, []⟩ :: delimiters (start + t.text.length) ts := List.filter_cons_of_pos hk
      rw [hword, List.map_cons, ih, List.flatMap_cons, Kind.delimiters, if_pos hk]
      rfl
    · have hword : delimiters start (t :: ts) = delimiters (start + t.text.length) ts :=
        List.filter_cons_of_neg hk
      rw [hword, ih, List.flatMap_cons, Kind.delimiters, if_neg hk]
      rfl

end Token

namespace Leaf

/-- A token and where it starts, without what is around it. -/
def mark (l : Leaf) : Token × Nat :=
  (l.token, l.start)

mutual

/-- The tokens `within` a tree stand where they stand without the tree. -/
theorem map_mark_within : ∀ (t : Tree) (around : List Site) (start : Nat),
    (within around start t).map mark = (Token.inPlace start t.leaves).map mark
  | .leaf _, _, _ => rfl
  | .node _ ts, _, start => map_mark_rowWithin ts _ start

theorem map_mark_rowWithin : ∀ (ts : List Tree) (around : List Site) (start : Nat),
    (rowWithin around start ts).map mark = (Token.inPlace start (rowLeaves ts)).map mark
  | [], _, _ => rfl
  | t :: ts, around, start => by
    rw [rowWithin, rowLeaves, List.map_append, Token.inPlace_append, List.map_append,
      map_mark_within, map_mark_rowWithin, width_eq_widthOf]

end

end Leaf

/-- Whether a word is `Nested` depends on the `mark` of its tokens. -/
theorem Nested.congr {w v : List Leaf} {ps : List (Nat × Nat)} (h : Nested w ps)
    (hv : v.map Leaf.mark = w.map Leaf.mark) : Nested v ps := by
  induction h generalizing v with
  | nil =>
    obtain rfl := List.map_eq_nil_iff.mp hv
    exact .nil
  | @pair o c inner rest ps qs hc _ _ ihinner ihrest =>
    rw [List.map_cons, List.map_append, List.map_cons] at hv
    obtain ⟨o', v, rfl, ho, hv⟩ := List.map_eq_cons_iff.mp hv
    obtain ⟨inner', v, rfl, hinner, hv⟩ := List.map_eq_append_iff.mp hv
    obtain ⟨c', rest', rfl, hc', hrest⟩ := List.map_eq_cons_iff.mp hv
    obtain ⟨hotoken, hostart⟩ := Prod.mk.inj ho
    obtain ⟨hctoken, hcstart⟩ := Prod.mk.inj hc'
    rw [← hostart, ← hcstart]
    refine .pair ?_ (ihinner hinner) (ihrest hrest)
    rw [Leaf.kind, Leaf.kind, hotoken, hctoken]
    exact hc

/-! ### The tokens of a node -/

namespace Form

/-- The tokens of a node, in place. -/
def tokens (f : Form) : List Leaf :=
  Leaf.rowWithin (f.toSite :: f.around) f.start f.children

/-- Where the first and the last token of a node are. -/
def ends (f : Form) : Option (Nat × Nat) :=
  f.tokens.head?.bind fun first => f.tokens.getLast?.map fun last => (first.start, last.start)

theorem Brackets.ends_eq {f : Form} {o c : Token} {es : List Tree} (h : f.Brackets o es c) :
    f.ends = some (f.start, f.innerStop) := by
  rw [ends, tokens, h.leaves_children, ← List.cons_append, List.getLast?_concat]
  rfl

end Form

/-! ### The delimiters of a text -/

namespace Document

section

variable {cs : List Char}
  (h : ∀ f ∈ (ofText cs).nodes, f.kind ≠ .error ∧ (f.isCollection → f.isClosed))
include h

/-- Where no closer is stray a delimiter token `isDelimiter` of a collection. -/
theorem isDelimiter_of_sound {l : Leaf} (hl : l ∈ (ofText cs).leaves)
    (hk : l.kind.isOpener || l.kind.isCloser) : l.isDelimiter := by
  obtain ⟨p, x, y, hp, hparent, hsplit, -⟩ := exists_parent_of_mem hl
  rw [Leaf.isDelimiter, hparent, hk]
  exact isCollection_of_delimiter h hp hsplit hk

/-- Then the delimiters of the collections are the delimiter tokens, `Token.delimiters`. -/
theorem map_mark_delimitersIn :
    (Leaf.delimitersIn 0 (ofText cs).length (ofText cs).leaves).map Leaf.mark =
      (Token.delimiters 0 (scan cs)).map Leaf.mark := by
  let p : Token × Nat → Bool := fun m => m.1.kind.isOpener || m.1.kind.isCloser
  have hfilter : Leaf.delimitersIn 0 (ofText cs).length (ofText cs).leaves =
      (ofText cs).leaves.filter (p ∘ Leaf.mark) := by
    refine List.filter_congr fun l hl => ?_
    rw [Bool.eq_iff_iff, Bool.and_eq_true, Bool.and_eq_true, decide_eq_true_eq, decide_eq_true_eq]
    constructor
    · intro hall
      exact (Bool.and_eq_true_iff.mp hall.1.1).1
    · intro hk
      exact ⟨⟨isDelimiter_of_sound h hl hk, Nat.zero_le _⟩, stop_le_of_leaf hl⟩
  have hleaves : (ofText cs).leaves.map Leaf.mark = (Token.inPlace 0 (scan cs)).map Leaf.mark := by
    have hmarks := Leaf.map_mark_within (ofText cs).tree [] 0
    rw [leaves_tree] at hmarks
    exact hmarks
  have hword : Token.delimiters 0 (scan cs) = (Token.inPlace 0 (scan cs)).filter (p ∘ Leaf.mark) :=
    rfl
  rw [hfilter, hword, ← List.filter_map, ← List.filter_map, hleaves]

/-- The delimiter tokens are `Nested` as the collections are. -/
theorem nested_delimiters :
    Nested (Token.delimiters 0 (scan cs))
      (Form.collectionsIn 0 (ofText cs).length (ofText cs).nodes) := by
  refine Nested.congr (nested_of_isBalanced (fun f hf => (h f hf).2) ?_)
    (map_mark_delimitersIn h).symm
  -- the range of the whole text leaves every form whole
  refine isBalanced_iff.mpr fun f hf => ?_
  have hstop := (placed_of_mem_nodes (mem_forms_iff.mp hf).1).stop_le
  exact .inr (.inl ⟨Nat.zero_le _, hstop⟩)

/-- The pairs are the `ends` of the collections, their first and last tokens. -/
theorem map_ends_eq :
    ((ofText cs).nodes.filter (·.isCollection)).map Form.ends =
      (Form.collectionsIn 0 (ofText cs).length (ofText cs).nodes).map some := by
  have hfilter : (ofText cs).nodes.filter (fun f => f.isCollection && 0 ≤ f.start &&
      f.stop ≤ (ofText cs).length) = (ofText cs).nodes.filter (·.isCollection) := by
    refine List.filter_congr fun f hf => ?_
    have hstop := (placed_of_mem_nodes hf).stop_le
    simp [hstop]
  rw [Form.collectionsIn, hfilter, List.map_map]
  refine List.map_congr_left fun f hf => ?_
  obtain ⟨hnode, hk⟩ := List.mem_filter.mp hf
  obtain ⟨o, es, c, -, hbrackets, -⟩ :=
    (placed_of_mem_nodes hnode).exists_brackets hk ((h f hnode).2 hk)
  exact hbrackets.ends_eq

end

/-- **Collections are the pairs of delimiters that nest.**  The tree of a text has no error and every
collection in it is closed, when the delimiter tokens of the text nest and only then.  In that case
they nest in one way, and the pairs are the first and the last tokens of the collections. -/
theorem collections_match_delimiters (cs : List Char) :
    ((∀ f ∈ (ofText cs).nodes, f.kind ≠ .error ∧ (f.isCollection → f.isClosed)) ↔
      ∃ pairs, Nested (Token.delimiters 0 (scan cs)) pairs) ∧
    ((∀ f ∈ (ofText cs).nodes, f.kind ≠ .error ∧ (f.isCollection → f.isClosed)) →
      ∀ pairs, Nested (Token.delimiters 0 (scan cs)) pairs ↔
        pairs.map some = ((ofText cs).nodes.filter (·.isCollection)).map Form.ends) := by
  refine ⟨⟨?_, ?_⟩, ?_⟩
  · intro h
    exact ⟨_, nested_delimiters h⟩
  · rintro ⟨pairs, hnested⟩
    rw [Text.sound_iff_pairAll, ← Kind.pairAll_delimiters, ← Token.map_kind_delimiters _ 0]
    exact hnested.pairAll_map_kind []
  · intro h pairs
    rw [map_ends_eq h, List.map_inj_right fun _ _ => Option.some.inj]
    constructor
    · intro hnested
      exact hnested.unique (nested_delimiters h)
    · rintro rfl
      exact nested_delimiters h

/-- Delimiters in a string, in a comment and behind a backslash are no delimiter tokens.  A vector
that a list's closer ends does not nest. -/
theorem collections_match_delimiters_hidden :
    let cs := "(a '[\")\" \\] \x7b\x7d] ;(\n)".toList
    (∀ f ∈ (ofText cs).nodes, f.kind ≠ .error ∧ (f.isCollection → f.isClosed)) ∧
    Nested (Token.delimiters 0 (scan cs)) [(0, 19), (4, 14), (12, 13)] ∧
    ¬∃ pairs, Nested (Token.delimiters 0 (scan "([)".toList)) pairs := by
  intro cs
  have hsound : ∀ f ∈ (ofText cs).nodes, f.kind ≠ .error ∧ (f.isCollection → f.isClosed) := by
    decide +kernel
  refine ⟨hsound, ?_, ?_⟩
  · exact ((collections_match_delimiters cs).2 hsound _).mpr (by decide +kernel)
  · rw [← (collections_match_delimiters _).1]
    decide +kernel

end Document

end SexpEdit
