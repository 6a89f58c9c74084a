/-
The grammar of documents.

The rules are stated on trees, apart from the reader.  A rule may look at the tokens that come after
the tree: a collection without its closer has none after it, and a prefix stands without a form only
before a closer, a comment or the end.  `IsForm rest t` says that `t` is a form with the tokens
`rest` after it, `IsRow inner rest ts` that `ts` is what may stand inside a collection that `inner`
closes (or in the document, where nothing does), and `IsDocument t` that `t` is a whole document.

* `read_leaves` — a document is the tree that is read from its leaves, so the leaves determine it;
* `exists_isDocument` — every row of tokens is the leaves of some document, found by descending
  through the rules;
* `parse_isDocument_unique` — the tree of a text is the one document over its tokens;
* `parse_is_lossless` — nothing is lost between a text and its tree.
-/
import SexpEdit.Proofs.Replay
import SexpEdit.Proofs.Scan

namespace SexpEdit

namespace Kind

theorem ne_prefixed_of_collection? {o k : Kind} (h : o.collection? = some k) : k ≠ .prefixed := by
  rintro rfl
  cases o <;> cases h

theorem isCloser_of_ending? {k c : Kind} (h : k.ending? = some c) : c.isCloser := by
  cases k <;> cases h <;> rfl

theorem blank_or_comment_of_isTrivia {k : Kind} (h : k.isTrivia) :
    (k = .whitespace ∨ k = .newline) ∨ k = .comment := by
  cases k <;> simp_all [isTrivia]

end Kind

/-! ### Rows of trees -/

namespace Tree

@[simp] theorem rowLeaves_append (ts us : List Tree) :
    rowLeaves (ts ++ us) = rowLeaves ts ++ rowLeaves us := by
  induction ts with
  | nil => rfl
  | cons t ts ih => rw [List.cons_append, rowLeaves, ih, rowLeaves, List.append_assoc]

@[simp] theorem rowLeaves_map_leaf (ts : List Token) : rowLeaves (ts.map leaf) = ts := by
  induction ts with
  | nil => rfl
  | cons t ts ih => rw [List.map_cons, rowLeaves, ih, leaves, List.singleton_append]

end Tree

namespace Grammar

/-- Tokens that give a prefix nothing to apply to: none, or a closer or a comment first. -/
def NoOperand : List Token → Prop
  | [] => True
  | t :: _ => t.kind.isCloser ∨ t.kind = .comment

mutual

/-- A form, with the tokens `rest` after it. -/
inductive IsForm : List Token → Tree → Prop
  /-- One token that is no trivia, delimiter or prefix. -/
  | atom {rest : List Token} {t : Token} : t.kind.isAtomic → IsForm rest (.node .atom [.leaf t])
  /-- An opener, what stands inside, and the closer that matches. -/
  | closed {rest : List Token} {o c : Token} {k : Kind} {es : List Tree} :
      o.kind.collection? = some k → k.ending? = some c.kind → IsRow k.ending? (c :: rest) es →
      IsForm rest (.node k (.leaf o :: (es ++ [.leaf c])))
  /-- An opener and what stands inside, up to the end of the text. -/
  | unclosed {o : Token} {k : Kind} {es : List Tree} :
      o.kind.collection? = some k → IsRow k.ending? [] es → IsForm [] (.node k (.leaf o :: es))
  /-- A prefix, the blanks after it, and the form it applies to. -/
  | prefixed {rest : List Token} {p : Token} {bs : List Token} {t : Tree} :
      p.kind = .readerPrefix → (∀ b ∈ bs, b.kind = .whitespace ∨ b.kind = .newline) →
      IsForm rest t → IsForm rest (.node .prefixed (.leaf p :: (bs.map .leaf ++ [t])))
  /-- A prefix and the blanks after it, where no form follows. -/
  | dangling {rest : List Token} {p : Token} {bs : List Token} :
      p.kind = .readerPrefix → (∀ b ∈ bs, b.kind = .whitespace ∨ b.kind = .newline) →
      NoOperand rest → IsForm rest (.node .prefixed (.leaf p :: bs.map .leaf))

/-- What stands in a collection that `inner` closes, or in the document when nothing does, with the
tokens `rest` after it. -/
inductive IsRow : Option Kind → List Token → List Tree → Prop
  | nil {inner : Option Kind} {rest : List Token} : IsRow inner rest []
  | trivia {inner : Option Kind} {rest : List Token} {t : Token} {ts : List Tree} :
      t.kind.isTrivia → IsRow inner rest ts → IsRow inner rest (.leaf t :: ts)
  /-- A closer that does not match is an error of its own. -/
  | error {inner : Option Kind} {rest : List Token} {t : Token} {ts : List Tree} :
      t.kind.isCloser → inner ≠ some t.kind → IsRow inner rest ts →
      IsRow inner rest (.node .error [.leaf t] :: ts)
  | form {inner : Option Kind} {rest : List Token} {t : Tree} {ts : List Tree} :
      IsForm (Tree.rowLeaves ts ++ rest) t → IsRow inner rest ts → IsRow inner rest (t :: ts)

end

/-- A whole document. -/
def IsDocument (t : Tree) : Prop :=
  ∃ ts, t = .node .root ts ∧ IsRow none [] ts

end Grammar

/-! ### A document is read back from its leaves -/

namespace Tree.Scaffold

/-- The document once the tokens `ts` have been read too. -/
def result (s : Scaffold) (ts : List Token) : Tree :=
  (ts.foldl read s).finish

/-- The row `ts` is to be read in a collection that `inner` closes, or in the document: no prefix
waits for a form. -/
def Inside (s : Scaffold) (inner : Option Kind) : Prop :=
  match s.frames with
  | [] => inner = none
  | f :: _ => f.kind ≠ .prefixed ∧ f.kind.ending? = inner

theorem result_cons (s : Scaffold) (t : Token) (ts : List Token) :
    s.result (t :: ts) = (s.read t).result ts :=
  rfl

theorem result_append (s : Scaffold) (ts us : List Token) :
    s.result (ts ++ us) = (ts.foldl read s).result us := by
  rw [result, List.foldl_append, result]

theorem Inside.attach {s : Scaffold} {inner : Option Kind} (h : s.Inside inner) (t : Tree) :
    (s.attach t).Inside inner := by
  obtain ⟨top, _ | ⟨f, fs⟩⟩ := s <;> exact h

theorem Inside.settle {s : Scaffold} {inner : Option Kind} (h : s.Inside inner) : s.settle = s := by
  obtain ⟨top, _ | ⟨f, fs⟩⟩ := s
  · rfl
  · exact if_neg h.1

theorem Inside.supply {s : Scaffold} {inner : Option Kind} (h : s.Inside inner) (t : Tree) :
    s.supply t = s.attach t := by
  obtain ⟨top, _ | ⟨f, fs⟩⟩ := s
  · rfl
  · exact if_neg h.1

theorem Inside.read_stray {s : Scaffold} {inner : Option Kind} {t : Token} (h : s.Inside inner)
    (ht : t.kind.isCloser) (hne : inner ≠ some t.kind) :
    s.read t = s.attach (.node .error [.leaf t]) := by
  rw [read_closer s ht, readCloser, h.settle]
  obtain ⟨top, _ | ⟨f, fs⟩⟩ := s
  · rfl
  · have hf : f.kind.ending? ≠ some t.kind := by
      rw [h.2]
      exact hne
    exact if_neg hf

/-- After `supplyTo` has added a form no prefix waits. -/
theorem settle_supplyTo (top : List Tree) : ∀ (fs : List Frame) (t : Tree),
    (supplyTo top fs t).settle = supplyTo top fs t := by
  intro fs
  induction fs with
  | nil =>
    intro t
    rfl
  | cons f fs ih =>
    intro t
    by_cases hf : f.kind = .prefixed
    · rw [supplyTo, if_pos hf]
      exact ih _
    · rw [supplyTo, if_neg hf]
      exact if_neg hf

theorem finish_supplyTo (top : List Tree) : ∀ (fs : List Frame) (t : Tree),
    (supplyTo top fs t).finish = .node .root (closeOver top t fs).reverse := by
  intro fs
  induction fs with
  | nil =>
    intro t
    rfl
  | cons f fs ih =>
    intro t
    by_cases hf : f.kind = .prefixed
    · rw [supplyTo, if_pos hf, ih, closeOver]
    · rw [supplyTo, if_neg hf, closeOver]
      rfl

/-- At the end of the text it makes no difference whether the innermost node is still open. -/
theorem finish_cons (top : List Tree) (f : Frame) (fs : List Frame) :
    finish ⟨top, f :: fs⟩ = (supply ⟨top, fs⟩ f.close).finish := by
  rw [supply, finish_supplyTo]
  rfl

/-- A row is added by `attach` to the innermost open node, when there is one. -/
theorem foldl_attach_cons (top : List Tree) (fs : List Frame) : ∀ (ts : List Tree) (f : Frame),
    ts.foldl attach ⟨top, f :: fs⟩ = ⟨top, ⟨f.kind, ts.reverse ++ f.children⟩ :: fs⟩ := by
  intro ts
  induction ts with
  | nil =>
    intro f
    rfl
  | cons t ts ih =>
    intro f
    rw [List.foldl_cons, attach, ih, List.reverse_cons, List.append_assoc]
    rfl

theorem foldl_attach_nil : ∀ (ts top : List Tree),
    ts.foldl attach ⟨top, []⟩ = ⟨ts.reverse ++ top, []⟩ := by
  intro ts
  induction ts with
  | nil =>
    intro top
    rfl
  | cons t ts ih =>
    intro top
    rw [List.foldl_cons, attach, ih, List.reverse_cons, List.append_assoc]
    rfl

theorem foldl_read_blanks {bs : List Token}
    (hbs : ∀ b ∈ bs, b.kind = .whitespace ∨ b.kind = .newline) (s : Scaffold) :
    bs.foldl read s = (bs.map Tree.leaf).foldl attach s := by
  induction bs generalizing s with
  | nil => rfl
  | cons b bs ih =>
    rw [List.foldl_cons, List.map_cons, List.foldl_cons, read_blank s (hbs b (by simp))]
    exact ih (fun b' hb' => hbs b' (by simp [hb'])) _

/-- A closer that is the `ending?` of the innermost collection ends it. -/
theorem read_matching {f : Frame} {c : Token} (hf : f.kind ≠ .prefixed)
    (hc : f.kind.ending? = some c.kind) (top : List Tree) (fs : List Frame) :
    read ⟨top, f :: fs⟩ c = supply ⟨top, fs⟩ (f.push (.leaf c)).close := by
  have hsettle : settle ⟨top, f :: fs⟩ = ⟨top, f :: fs⟩ := if_neg hf
  rw [read_closer _ (Kind.isCloser_of_ending? hc), readCloser, hsettle]
  exact if_pos hc

/-- A closer or a comment that comes while a prefix waits is read as if the prefix were finished. -/
theorem read_of_noOperand {f : Frame} {t : Token} (hf : f.kind = .prefixed)
    (ht : t.kind.isCloser ∨ t.kind = .comment) (top : List Tree) (fs : List Frame) :
    read ⟨top, f :: fs⟩ t = (supply ⟨top, fs⟩ f.close).read t := by
  have hsettle : settle ⟨top, f :: fs⟩ = supply ⟨top, fs⟩ f.close := if_pos hf
  rcases ht with ht | ht
  · rw [read_closer _ ht, read_closer _ ht, readCloser, readCloser, hsettle, supply,
      settle_supplyTo]
  · rw [read_comment _ ht, read_comment _ ht, hsettle, supply, settle_supplyTo]

end Tree.Scaffold

namespace Grammar

open SexpEdit.Tree SexpEdit.Tree.Scaffold

mutual

/-- Reading the leaves of an `IsForm` adds the form. -/
theorem IsForm.result_eq {rest : List Token} {t : Tree} : IsForm rest t → ∀ s : Scaffold,
    s.result (t.leaves ++ rest) = (s.supply t).result rest
  | @IsForm.atom rest t ht, s => by
    rw [← read_atomic s ht]
    rfl
  | @IsForm.closed rest o c k es ho hc hes, s => by
    have hk := Kind.ne_prefixed_of_collection? ho
    have hrow := hes.result_eq ((s.enter k).attach (.leaf o)) ⟨hk, rfl⟩
    have hfold := foldl_attach_cons s.top s.frames es ⟨k, [.leaf o]⟩
    simp only [leaves, rowLeaves, rowLeaves_append, List.cons_append, List.nil_append,
      List.append_assoc, List.append_nil]
    rw [result_cons, read_opener s ho, hrow, result_cons]
    show (read (es.foldl attach ⟨s.top, ⟨k, [.leaf o]⟩ :: s.frames⟩) c).result rest = _
    rw [hfold, read_matching hk hc]
    simp [Frame.push, Frame.close]
  | @IsForm.unclosed o k es ho hes, s => by
    have hrow := hes.result_eq ((s.enter k).attach (.leaf o))
      ⟨Kind.ne_prefixed_of_collection? ho, rfl⟩
    have hfold := foldl_attach_cons s.top s.frames es ⟨k, [.leaf o]⟩
    simp only [leaves, rowLeaves, List.cons_append, List.nil_append]
    rw [result_cons, read_opener s ho, hrow]
    -- the collection is still open, and it ends with the text
    show finish (es.foldl attach ⟨s.top, ⟨k, [.leaf o]⟩ :: s.frames⟩) = _
    rw [hfold, finish_cons]
    simp [Frame.close, result]
  | @IsForm.prefixed rest p bs t hp hbs ht, s => by
    have hfold := foldl_attach_cons s.top s.frames (bs.map .leaf) ⟨.prefixed, [.leaf p]⟩
    simp only [leaves, rowLeaves, rowLeaves_append, rowLeaves_map_leaf, List.cons_append,
      List.nil_append, List.append_assoc, List.append_nil]
    rw [result_cons, read_readerPrefix s hp, result_append, foldl_read_blanks hbs]
    show result ((bs.map .leaf).foldl attach ⟨s.top, ⟨.prefixed, [.leaf p]⟩ :: s.frames⟩) _ = _
    -- the form is added while the prefix waits, so both are finished at once
    rw [hfold, ht.result_eq]
    simp [supply, supplyTo, Frame.push, Frame.close]
  | @IsForm.dangling rest p bs hp hbs hrest, s => by
    have hfold := foldl_attach_cons s.top s.frames (bs.map .leaf) ⟨.prefixed, [.leaf p]⟩
    simp only [leaves, rowLeaves, rowLeaves_map_leaf, List.cons_append, List.nil_append]
    rw [result_cons, read_readerPrefix s hp, result_append, foldl_read_blanks hbs]
    show result ((bs.map .leaf).foldl attach ⟨s.top, ⟨.prefixed, [.leaf p]⟩ :: s.frames⟩) _ = _
    rw [hfold]
    -- the prefix still waits: the end of the text or the next token finishes it
    cases rest with
    | nil =>
      rw [result, List.foldl_nil, finish_cons]
      simp [Frame.close, result]
    | cons u rest =>
      rw [result_cons, read_of_noOperand rfl hrest]
      simp [Frame.close, result]

/-- Reading the leaves of an `IsRow` adds the row. -/
theorem IsRow.result_eq {inner : Option Kind} {rest : List Token} {ts : List Tree} :
    IsRow inner rest ts → ∀ s : Scaffold, s.Inside inner →
      s.result (rowLeaves ts ++ rest) = (ts.foldl attach s).result rest
  | .nil, s, _ => rfl
  | @IsRow.trivia inner rest t ts ht hts, s, hs => by
    have hread : s.read t = s.attach (.leaf t) := by
      rcases Kind.blank_or_comment_of_isTrivia ht with ht | ht
      · exact read_blank s ht
      · rw [read_comment s ht, hs.settle]
    rw [List.foldl_cons, ← hts.result_eq _ (hs.attach (.leaf t)), ← hread]
    rfl
  | @IsRow.error inner rest t ts ht hne hts, s, hs => by
    rw [List.foldl_cons, ← hts.result_eq _ (hs.attach (.node .error [.leaf t])),
      ← hs.read_stray ht hne]
    rfl
  | @IsRow.form inner rest t ts ht hts, s, hs => by
    rw [List.foldl_cons, ← hts.result_eq _ (hs.attach t), ← hs.supply, ← ht.result_eq, rowLeaves,
      List.append_assoc]

end

/-- An `IsDocument` is the tree that is read from its leaves. -/
theorem read_leaves {t : Tree} (ht : IsDocument t) : Tree.read t.leaves = t := by
  obtain ⟨ts, rfl, hts⟩ := ht
  have h := hts.result_eq Scaffold.empty rfl
  rw [List.append_nil, Scaffold.empty, foldl_attach_nil] at h
  rw [leaves]
  show result Scaffold.empty (rowLeaves ts) = _
  rw [Scaffold.empty, h]
  simp [result, finish]

/-! ### Every row of tokens makes a document -/

/-- Tokens whose first belongs to a form. -/
def StartsForm : List Token → Prop
  | [] => False
  | t :: _ => t.kind.isTrivia = false ∧ t.kind.isCloser = false

/-- An `IsForm` can be taken off the front of `ts`. -/
def HasForm (ts : List Token) : Prop :=
  ∃ u rest, ts = u.leaves ++ rest ∧ IsForm rest u ∧ rest.length < ts.length

/-- What stands in a collection can be taken off the front of `ts`, up to the closer that matches or
the end. -/
def HasRow (ts : List Token) : Prop :=
  ∀ inner : Option Kind, ∃ us rest, ts = rowLeaves us ++ rest ∧ IsRow inner rest us ∧
    ∀ c rest', rest = c :: rest' → inner = some c.kind

theorem hasForm_opener {o : Token} {k : Kind} {ts : List Token} (ho : o.kind.collection? = some k)
    (hrow : HasRow ts) : HasForm (o :: ts) := by
  obtain ⟨es, rest, hsplit, hes, hstop⟩ := hrow k.ending?
  cases rest with
  | nil =>
    refine ⟨.node k (.leaf o :: es), [], ?_, .unclosed ho hes, by simp⟩
    simp [leaves, rowLeaves, hsplit]
  | cons c rest =>
    refine ⟨.node k (.leaf o :: (es ++ [.leaf c])), rest, ?_,
      .closed ho (hstop c rest rfl) hes, ?_⟩
    · simp [leaves, rowLeaves, hsplit]
    · rw [hsplit]
      simp only [List.length_cons, List.length_append]
      omega

/-- A prefix takes the blanks after it, and a form when one comes next. -/
theorem hasForm_readerPrefix {p : Token} {ts : List Token} (hp : p.kind = .readerPrefix)
    (hform : ∀ us, us.length ≤ ts.length → StartsForm us → HasForm us) : HasForm (p :: ts) := by
  let isBlank (t : Token) : Bool := t.kind == .whitespace || t.kind == .newline
  have hsplit : ts.takeWhile isBlank ++ ts.dropWhile isBlank = ts := List.takeWhile_append_dropWhile
  have hbs : ∀ b ∈ ts.takeWhile isBlank, b.kind = .whitespace ∨ b.kind = .newline := by
    intro b hb
    have h := List.all_eq_true.mp List.all_takeWhile b hb
    simpa [isBlank] using h
  have hlen : (ts.dropWhile isBlank).length ≤ ts.length := (List.dropWhile_suffix isBlank).length_le
  -- either nothing for the prefix to apply to comes next, or a form starts there
  have hnext : NoOperand (ts.dropWhile isBlank) ∨ StartsForm (ts.dropWhile isBlank) := by
    rcases hrest : ts.dropWhile isBlank with _ | ⟨u, rest⟩
    · exact .inl trivial
    · have hu : isBlank u = false := by
        have h := List.head?_dropWhile_not isBlank ts
        rw [hrest] at h
        simpa using h
      show (u.kind.isCloser ∨ u.kind = .comment) ∨ u.kind.isTrivia = false ∧ u.kind.isCloser = false
      revert hu
      simp only [isBlank]
      cases u.kind <;> simp [Kind.isCloser, Kind.isTrivia]
  rcases hnext with hnext | hnext
  · refine ⟨.node .prefixed (.leaf p :: (ts.takeWhile isBlank).map .leaf), ts.dropWhile isBlank, ?_,
      .dangling hp hbs hnext, by simp only [List.length_cons]; omega⟩
    simp [leaves, rowLeaves, hsplit]
  · obtain ⟨u, rest, hu, hform, hlt⟩ := hform _ hlen hnext
    refine ⟨.node .prefixed (.leaf p :: ((ts.takeWhile isBlank).map .leaf ++ [u])), rest, ?_,
      .prefixed hp hbs hform, by simp only [List.length_cons]; omega⟩
    simp only [leaves, rowLeaves, rowLeaves_append, rowLeaves_map_leaf, List.cons_append,
      List.nil_append, List.append_nil, List.append_assoc, ← hu, hsplit]

theorem hasForm_cons {t : Token} {ts : List Token} (ht : StartsForm (t :: ts)) (hrow : HasRow ts)
    (hform : ∀ us, us.length ≤ ts.length → StartsForm us → HasForm us) : HasForm (t :: ts) := by
  obtain ⟨htrivia, hcloser⟩ := ht
  rcases t.kind.sort with h | h | h | ⟨k, h⟩ | h | h
  · rcases h with h | h <;> rw [h] at htrivia <;> cases htrivia
  · rw [h] at htrivia
    cases htrivia
  · rw [h] at hcloser
    cases hcloser
  · exact hasForm_opener h hrow
  · exact hasForm_readerPrefix h hform
  · exact ⟨.node .atom [.leaf t], ts, rfl, .atom h, Nat.lt_succ_self _⟩

/-- A row starts with trivia, an error or a form, and goes on with a row. -/
theorem hasRow_cons {t : Token} {ts : List Token} (hform : StartsForm (t :: ts) → HasForm (t :: ts))
    (hrow : ∀ us, us.length ≤ ts.length → HasRow us) : HasRow (t :: ts) := by
  intro inner
  by_cases htrivia : t.kind.isTrivia
  · obtain ⟨us, rest, hsplit, hus, hstop⟩ := hrow ts (Nat.le_refl _) inner
    exact ⟨.leaf t :: us, rest, by simp [rowLeaves, leaves, hsplit], .trivia htrivia hus, hstop⟩
  · by_cases hcloser : t.kind.isCloser
    · by_cases hinner : inner = some t.kind
      · -- the closer that matches is not part of the row
        refine ⟨[], t :: ts, rfl, .nil, ?_⟩
        rintro c rest h
        rw [← (List.cons.inj h).1]
        exact hinner
      · obtain ⟨us, rest, hsplit, hus, hstop⟩ := hrow ts (Nat.le_refl _) inner
        exact ⟨.node .error [.leaf t] :: us, rest, by simp [rowLeaves, leaves, hsplit],
          .error hcloser hinner hus, hstop⟩
    · obtain ⟨u, rest, hu, hfm, hlt⟩ := hform ⟨by simpa using htrivia, by simpa using hcloser⟩
      rw [List.length_cons] at hlt
      obtain ⟨us, rest', hsplit, hus, hstop⟩ := hrow rest (Nat.le_of_lt_succ hlt) inner
      refine ⟨u :: us, rest', ?_, .form ?_ hus, hstop⟩
      · rw [hu, hsplit, rowLeaves, List.append_assoc]
      · rw [← hsplit]
        exact hfm

theorem hasForm_and_hasRow : ∀ (n : Nat) (ts : List Token), ts.length ≤ n →
    (StartsForm ts → HasForm ts) ∧ HasRow ts := by
  -- on the number of tokens: a form is taken off, not one token, before the row goes on
  intro n
  induction n with
  | zero =>
    intro ts hts
    obtain rfl := List.length_eq_zero_iff.mp (Nat.le_zero.mp hts)
    exact ⟨False.elim, fun inner => ⟨[], [], rfl, .nil, by simp⟩⟩
  | succ n ih =>
    intro ts hts
    cases ts with
    | nil => exact ih [] (Nat.zero_le n)
    | cons t ts =>
      rw [List.length_cons] at hts
      have hform : StartsForm (t :: ts) → HasForm (t :: ts) := fun ht =>
        hasForm_cons ht (ih ts (by omega)).2 fun us hus => (ih us (by omega)).1
      exact ⟨hform, hasRow_cons hform fun us hus => (ih us (by omega)).2⟩

theorem exists_isDocument (ts : List Token) : ∃ t, IsDocument t ∧ t.leaves = ts := by
  obtain ⟨us, rest, hsplit, hus, hstop⟩ := (hasForm_and_hasRow ts.length ts (Nat.le_refl _)).2 none
  -- nothing closes the document, so the row reaches the end
  obtain rfl : rest = [] := by
    cases rest with
    | nil => rfl
    | cons c rest => cases hstop c rest rfl
  refine ⟨.node .root us, ⟨us, rfl, hus⟩, ?_⟩
  rw [leaves, hsplit, List.append_nil]

end Grammar

open Grammar

/-! ### Reading -/

theorem Tree.read_isDocument (ts : List Token) : IsDocument (Tree.read ts) := by
  obtain ⟨t, ht, rfl⟩ := exists_isDocument ts
  rw [read_leaves ht]
  exact ht

@[simp] theorem Tree.leaves_read (ts : List Token) : (Tree.read ts).leaves = ts := by
  obtain ⟨t, ht, rfl⟩ := exists_isDocument ts
  rw [read_leaves ht]

/-- **The grammar determines the tree.** The tree of a text, which is the tree that its events
build, is an `IsDocument` over its tokens, and there is no other. -/
theorem Tree.parse_isDocument_unique (cs : List Char) :
    Tree.ofEvents? (Event.ofTokens (Token.scan cs)) (Token.scan cs) = .ok (Tree.parse cs) ∧
      IsDocument (Tree.parse cs) ∧ (Tree.parse cs).leaves = Token.scan cs ∧
      ∀ t, IsDocument t → t.leaves = Token.scan cs → t = Tree.parse cs := by
  refine ⟨Tree.ofEvents?_ofTokens _, Tree.read_isDocument _, Tree.leaves_read _, ?_⟩
  intro t ht hleaves
  rw [Tree.parse, ← hleaves, read_leaves ht]

/-- **Reading is lossless.**  The tokens of a text are not empty, their spans cover the bytes of the
text one after another, each token has the bytes of its span, the events of the tokens build the
tree without fail, and the leaves of the tree are the tokens, so that its text is the text. -/
theorem Tree.parse_is_lossless (cs : List Char) :
    (∀ t ∈ Token.scan cs, t.text ≠ []) ∧
      Text.Tiles 0 cs.utf8Encode.size ((Token.spansFrom 0 (Token.scan cs)).map Prod.snd) ∧
      (∀ t a b, (t, a, b) ∈ Token.spansFrom 0 (Token.scan cs) →
        cs.utf8Encode.extract a b = t.text.utf8Encode) ∧
      (Token.spansFrom 0 (Token.scan cs)).map Prod.fst = Token.scan cs ∧
      Tree.ofEvents? (Event.ofTokens (Token.scan cs)) (Token.scan cs) = .ok (Tree.parse cs) ∧
      (Tree.parse cs).leaves = Token.scan cs ∧ (Tree.parse cs).text = cs := by
  have hleaves : (Tree.parse cs).leaves = Token.scan cs := Tree.leaves_read _
  have htiles := Token.tiles_scan cs
  rw [← Text.size_utf8Encode] at htiles
  refine ⟨fun t ht => Token.scan_text_ne_nil ht, htiles,
    fun t a b h => Token.utf8Encode_extract_of_mem_spans h, Token.map_fst_spansFrom _ _,
    Tree.ofEvents?_ofTokens _, hleaves, ?_⟩
  rw [Tree.text, hleaves, Token.scan_text]

end SexpEdit
