/-
Balanced texts.

A text is balanced when its tree has no stray closer, every collection is closed and every string
has its quote.  A tidy tree is one that the grammar makes without stray closers and without
collections that lack their closer; it says nothing of the tokens after the tree.

* `Tidy.pairAll_leaves` — the delimiters of a tidy tree pair among themselves;
* `IsRow.tidy_of_pairAll` — where the delimiters pair, the trees are tidy;
* `Text.balanced_iff_reads` — a text without loose backslashes is balanced when a watch reads it to
  the end and waits for nothing then.
-/
import SexpEdit.Document
import SexpEdit.Proofs.Grammar
import SexpEdit.Proofs.Pairing

namespace SexpEdit

open Grammar

/-- Every collection is closed, every closer closes one, and every string has its closing quote. -/
def Text.Balanced (cs : List Char) : Prop :=
  (∀ f ∈ (Document.ofText cs).nodes, f.kind ≠ .error ∧ (f.isCollection → f.isClosed)) ∧
    ∀ t ∈ Token.scan cs, t.kind ≠ .unterminatedString

instance (cs : List Char) : Decidable (Text.Balanced cs) :=
  inferInstanceAs (Decidable (_ ∧ _))

/-! ### The nodes of a tree -/

namespace Tree

/-- The tree `u` stands somewhere in another one. -/
inductive Has (u : Tree) : Tree → Prop
  | self : Has u u
  | child {k : Kind} {ts : List Tree} {t : Tree} : t ∈ ts → Has u t → Has u (.node k ts)

/-- Whether a node of kind `k` is no stray closer and, if it is a collection, `isClosed`. -/
def SoundNode (k : Kind) (ts : List Tree) : Prop :=
  k ≠ .error ∧ (k.isCollection → (Form.ofNode k 0 ts []).isClosed)

/-- Every node of the tree is a `SoundNode`. -/
def Sound (t : Tree) : Prop :=
  ∀ k ts, Has (.node k ts) t → SoundNode k ts

theorem sound_leaf (t : Token) : Sound (.leaf t) := by
  rintro k ts ⟨⟩

theorem sound_node {k : Kind} {ts : List Tree} (hk : SoundNode k ts) (hts : ∀ t ∈ ts, Sound t) :
    Sound (.node k ts) := by
  rintro j us (_ | ⟨ht, hus⟩)
  · exact hk
  · exact hts _ ht j us hus

theorem Sound.child {k : Kind} {ts : List Tree} (h : Sound (.node k ts)) {t : Tree} (ht : t ∈ ts) :
    Sound t :=
  fun j us hj => h j us (.child ht hj)

end Tree

namespace Form

open SexpEdit.Tree

mutual

theorem has_of_mem_within : ∀ {t : Tree} {around : List Site} {start : Nat} {f : Form},
    f ∈ within around start t → Has (.node f.kind f.children) t
  | .leaf _, _, _, _, h => absurd h List.not_mem_nil
  | .node k ts, around, start, f, h => by
    rw [within] at h
    rcases List.mem_cons.mp h with rfl | h
    · exact .self
    · obtain ⟨t, ht, hf⟩ := has_of_mem_rowWithin h
      exact .child ht hf

theorem has_of_mem_rowWithin : ∀ {ts : List Tree} {around : List Site} {start : Nat} {f : Form},
    f ∈ rowWithin around start ts → ∃ t ∈ ts, Has (.node f.kind f.children) t
  | [], _, _, _, h => absurd h List.not_mem_nil
  | t :: ts, around, start, f, h => by
    rw [rowWithin] at h
    rcases List.mem_append.mp h with h | h
    · exact ⟨t, by simp, has_of_mem_within h⟩
    · obtain ⟨u, hu, hf⟩ := has_of_mem_rowWithin h
      exact ⟨u, by simp [hu], hf⟩

end

theorem exists_within_subset {t : Tree} : ∀ {ts : List Tree}, t ∈ ts → ∀ around start,
    ∃ start', ∀ f ∈ within around start' t, f ∈ rowWithin around start ts := by
  intro ts
  induction ts with
  | nil =>
    intro ht
    cases ht
  | cons u ts ih =>
    intro ht around start
    rcases List.mem_cons.mp ht with rfl | ht
    · refine ⟨start, fun f hf => ?_⟩
      rw [rowWithin]
      exact List.mem_append_left _ hf
    · obtain ⟨start', h⟩ := ih ht around (start + u.width)
      refine ⟨start', fun f hf => ?_⟩
      rw [rowWithin]
      exact List.mem_append_right _ (h f hf)

theorem exists_mem_within {k : Kind} {us : List Tree} {t : Tree} (h : Has (.node k us) t) :
    ∀ around start, ∃ f ∈ within around start t, f.kind = k ∧ f.children = us := by
  induction h with
  | self =>
    intro around start
    refine ⟨ofNode k start us around, ?_, rfl, rfl⟩
    rw [within]
    exact List.mem_cons_self
  | @child j ts t ht _ ih =>
    intro around start
    obtain ⟨start', hsub⟩ := exists_within_subset ht (Site.ofNode j start ts :: around) start
    obtain ⟨f, hf, hk, hus⟩ := ih (Site.ofNode j start ts :: around) start'
    refine ⟨f, ?_, hk, hus⟩
    rw [within]
    exact List.mem_cons_of_mem _ (hsub f hf)

/-- The nodes of a tree in place are sound when the tree is `Sound`. -/
theorem forall_mem_within_iff {t : Tree} {around : List Site} {start : Nat} :
    (∀ f ∈ within around start t, f.kind ≠ .error ∧ (f.isCollection → f.isClosed)) ↔ t.Sound := by
  constructor
  · intro h k us hus
    obtain ⟨f, hf, rfl, rfl⟩ := exists_mem_within hus around start
    exact h f hf
  · intro h f hf
    exact h f.kind f.children (has_of_mem_within hf)

end Form

/-! ### Tidy trees -/

namespace Kind

theorem closer?_eq_ending? {o k : Kind} (h : o.collection? = some k) : o.closer? = k.ending? := by
  cases o <;> cases h <;> rfl

theorem isCollection_of_collection? {o k : Kind} (h : o.collection? = some k) : k.isCollection := by
  cases o <;> cases h <;> rfl

theorem not_delimiter_of_isAtomic {k : Kind} (h : k.isAtomic) :
    k.closer? = none ∧ k.isCloser = false := by
  cases k <;> cases h <;> exact ⟨rfl, rfl⟩

theorem not_delimiter_of_isTrivia {k : Kind} (h : k.isTrivia) :
    k.closer? = none ∧ k.isCloser = false := by
  cases k <;> cases h <;> exact ⟨rfl, rfl⟩

end Kind

/-- Trees that the grammar makes where every closer closes a collection and every collection has its
closer: trivia and forms. -/
inductive Tree.Tidy : Tree → Prop
  | trivia {t : Token} : t.kind.isTrivia → Tidy (.leaf t)
  | atom {t : Token} : t.kind.isAtomic → Tidy (.node .atom [.leaf t])
  | closed {o c : Token} {k : Kind} {es : List Tree} :
      o.kind.collection? = some k → k.ending? = some c.kind → (∀ e ∈ es, Tidy e) →
      Tidy (.node k (.leaf o :: (es ++ [.leaf c])))
  | prefixed {p : Token} {bs : List Token} {k : Kind} {ts : List Tree} :
      p.kind = .readerPrefix → (∀ b ∈ bs, b.kind = .whitespace ∨ b.kind = .newline) →
      Tidy (.node k ts) → Tidy (.node .prefixed (.leaf p :: (bs.map .leaf ++ [.node k ts])))
  | dangling {p : Token} {bs : List Token} :
      p.kind = .readerPrefix → (∀ b ∈ bs, b.kind = .whitespace ∨ b.kind = .newline) →
      Tidy (.node .prefixed (.leaf p :: bs.map .leaf))

namespace Tree

theorem isClosed_ofNode {o c : Token} {k : Kind} {es : List Tree} (ho : o.kind.collection? = some k)
    (hc : k.ending? = some c.kind) :
    (Form.ofNode k 0 (.leaf o :: (es ++ [.leaf c])) []).isClosed := by
  have hfirst : (Form.ofNode k 0 (.leaf o :: (es ++ [.leaf c])) []).firstKind?.bind Kind.closer? =
      some c.kind := by
    show o.kind.closer? = some c.kind
    rw [Kind.closer?_eq_ending? ho, hc]
  have hlast : (Form.ofNode k 0 (.leaf o :: (es ++ [.leaf c])) []).children.getLast? =
      some (.leaf c) := by
    show (.leaf o :: (es ++ [.leaf c])).getLast? = _
    rw [← List.cons_append, List.getLast?_concat]
  unfold Form.isClosed
  rw [hfirst, hlast]
  exact beq_self_eq_true _

/-- A `Tidy` tree is `Sound`. -/
theorem Tidy.sound {t : Tree} (h : Tidy t) : Sound t := by
  induction h with
  | trivia => exact sound_leaf _
  | atom =>
    refine sound_node ⟨by decide, fun h => by cases h⟩ fun t ht => ?_
    rw [List.mem_singleton.mp ht]
    exact sound_leaf _
  | @closed o c k es ho hc _ ih =>
    have hk : k ≠ .error := by
      rintro rfl
      cases hc
    refine sound_node ⟨hk, fun _ => isClosed_ofNode ho hc⟩ fun t ht => ?_
    simp only [List.mem_cons, List.mem_append, List.not_mem_nil, or_false] at ht
    rcases ht with rfl | ht | rfl
    · exact sound_leaf o
    · exact ih t ht
    · exact sound_leaf c
  | @prefixed p bs k us _ _ _ ih =>
    refine sound_node ⟨by decide, fun h => by cases h⟩ fun t ht => ?_
    simp only [List.mem_cons, List.mem_append, List.mem_map, List.not_mem_nil, or_false] at ht
    rcases ht with rfl | ⟨b, -, rfl⟩ | rfl
    · exact sound_leaf p
    · exact sound_leaf b
    · exact ih
  | @dangling p bs =>
    refine sound_node ⟨by decide, fun h => by cases h⟩ fun t ht => ?_
    simp only [List.mem_cons, List.mem_map] at ht
    rcases ht with rfl | ⟨b, -, rfl⟩
    · exact sound_leaf p
    · exact sound_leaf b

end Tree

namespace Grammar

open SexpEdit.Tree

theorem IsForm.exists_node {rest : List Token} {t : Tree} (h : IsForm rest t) :
    ∃ k ts, t = .node k ts := by
  cases h <;> exact ⟨_, _, rfl⟩

/-- The tokens that stand in an `IsRow` by themselves are trivia. -/
theorem IsRow.isTrivia_of_leaf_mem {inner : Option Kind} {rest : List Token} :
    ∀ {ts : List Tree}, IsRow inner rest ts → ∀ {t : Token}, .leaf t ∈ ts → t.kind.isTrivia
  | _, .trivia ht hts, t, hmem => by
    rcases List.mem_cons.mp hmem with h | hmem
    · rw [Tree.leaf.inj h]
      exact ht
    · exact hts.isTrivia_of_leaf_mem hmem
  | _, .error _ _ hts, t, hmem => by
    rcases List.mem_cons.mp hmem with h | hmem
    · cases h
    · exact hts.isTrivia_of_leaf_mem hmem
  | _, .form ht hts, t, hmem => by
    rcases List.mem_cons.mp hmem with h | hmem
    · obtain ⟨k, us, hu⟩ := ht.exists_node
      rw [hu] at h
      cases h
    · exact hts.isTrivia_of_leaf_mem hmem

/-- A collection that the text ends in is not `isClosed`. -/
theorem IsRow.not_isClosed {o : Token} {k : Kind} {rest : List Token} {es : List Tree}
    (ho : o.kind.collection? = some k) (hes : IsRow k.ending? rest es) :
    ¬(Form.ofNode k 0 (.leaf o :: es) []).isClosed := by
  intro h
  unfold Form.isClosed at h
  split at h
  · rename_i c t hfirst hlast
    have hkind : t.kind = c := by simpa using h
    have hfirst : o.kind.closer? = some c := hfirst
    have hlast : (Tree.leaf o :: es).getLast? = some (.leaf t) := hlast
    -- the last element would have to be the closer: it is the opener, or trivia of the row
    rcases List.mem_cons.mp (List.mem_of_getLast? hlast) with heq | hmem
    · obtain rfl := Tree.leaf.inj heq
      revert hfirst
      rw [← hkind]
      cases t.kind <;> simp [Kind.closer?]
    · have htrivia := hes.isTrivia_of_leaf_mem hmem
      rw [hkind] at htrivia
      revert hfirst
      cases o.kind <;> simp only [Kind.closer?, Option.some.injEq, reduceCtorEq, false_imp_iff] <;>
        rintro rfl <;> cases htrivia
  · cases h

mutual

/-- A form without unsound nodes is `Tidy`. -/
theorem IsForm.tidy {rest : List Token} {t : Tree} : IsForm rest t → Sound t → Tidy t
  | .atom ht, _ => .atom ht
  | @IsForm.closed rest o c k es ho hc hes, h =>
    .closed ho hc (hes.tidy fun e he => h.child (by simp [he]))
  | @IsForm.unclosed o k es ho hes, h =>
    absurd ((h k _ .self).2 (Kind.isCollection_of_collection? ho)) (hes.not_isClosed ho)
  | @IsForm.prefixed rest p bs t hp hbs ht, h => by
    have htidy := ht.tidy (h.child (by simp))
    obtain ⟨k, ts, rfl⟩ := ht.exists_node
    exact .prefixed hp hbs htidy
  | .dangling hp hbs _, _ => .dangling hp hbs

theorem IsRow.tidy {inner : Option Kind} {rest : List Token} {ts : List Tree} :
    IsRow inner rest ts → (∀ t ∈ ts, Sound t) → ∀ t ∈ ts, Tidy t
  | .nil, _ => fun t ht => absurd ht List.not_mem_nil
  | .trivia ht hts, h => by
    rintro u (_ | ⟨_, hu⟩)
    · exact .trivia ht
    · exact hts.tidy (fun t ht => h t (by simp [ht])) u hu
  | .error _ _ _, h => absurd rfl (h _ List.mem_cons_self _ _ .self).1
  | .form ht hts, h => by
    rintro u (_ | ⟨_, hu⟩)
    · exact ht.tidy (h _ (by simp))
    · exact hts.tidy (fun t ht => h t (by simp [ht])) u hu

end

end Grammar

/-! ### The delimiters of a tree -/

namespace Kind

theorem pairAll_cons_of_not_delimiter {k : Kind} (h : k.closer? = none ∧ k.isCloser = false)
    (awaited ks : List Kind) : pairAll awaited (k :: ks) = pairAll awaited ks := by
  rw [pairAll_cons, pair_of_not_delimiter h.1 h.2]
  rfl

theorem not_delimiter_of_prefix_or_blank {k : Kind}
    (h : k = .readerPrefix ∨ k = .whitespace ∨ k = .newline) :
    k.closer? = none ∧ k.isCloser = false := by
  rcases h with rfl | rfl | rfl <;> exact ⟨rfl, rfl⟩

/-- Prefixes and blanks are passed over by `pairAll`. -/
theorem pairAll_prefixes {ts : List Token}
    (h : ∀ t ∈ ts, t.kind = .readerPrefix ∨ t.kind = .whitespace ∨ t.kind = .newline)
    (awaited ks : List Kind) : pairAll awaited (ts.map Token.kind ++ ks) = pairAll awaited ks := by
  induction ts with
  | nil => rfl
  | cons t ts ih =>
    rw [List.map_cons, List.cons_append,
      pairAll_cons_of_not_delimiter (not_delimiter_of_prefix_or_blank (h t (by simp)))]
    exact ih fun u hu => h u (by simp [hu])

/-- The prefix `p` and the blanks `bs` after it are passed over. -/
theorem pairAll_prefix_blanks {p : Token} {bs : List Token} (hp : p.kind = .readerPrefix)
    (hbs : ∀ b ∈ bs, b.kind = .whitespace ∨ b.kind = .newline) (awaited ks : List Kind) :
    pairAll awaited (p.kind :: (bs.map Token.kind ++ ks)) = pairAll awaited ks :=
  pairAll_prefixes (List.forall_mem_cons.mpr ⟨.inl hp, fun b hb => .inr (hbs b hb)⟩) awaited ks

end Kind

namespace Tree

open Kind

theorem pairAll_rowLeaves {ts : List Tree}
    (h : ∀ t ∈ ts, ∀ awaited, pairAll awaited (t.leaves.map Token.kind) = some awaited)
    (awaited : List Kind) : pairAll awaited ((rowLeaves ts).map Token.kind) = some awaited := by
  induction ts with
  | nil => rfl
  | cons t ts ih =>
    rw [rowLeaves, List.map_append, pairAll_append, h t (by simp), Option.bind_some]
    exact ih fun u hu => h u (by simp [hu])

/-- **The delimiters of a `Tidy` tree pair among themselves.** -/
theorem Tidy.pairAll_leaves {t : Tree} (h : Tidy t) :
    ∀ awaited, pairAll awaited (t.leaves.map Token.kind) = some awaited := by
  induction h with
  | trivia ht =>
    intro awaited
    exact pairAll_cons_of_not_delimiter (not_delimiter_of_isTrivia ht) awaited []
  | atom ht =>
    intro awaited
    exact pairAll_cons_of_not_delimiter (not_delimiter_of_isAtomic ht) awaited []
  | @closed o c k es ho hc _ ih =>
    intro awaited
    have hopen : o.kind.closer? = some c.kind := by rw [closer?_eq_ending? ho, hc]
    simp only [leaves, rowLeaves, rowLeaves_append, List.cons_append, List.nil_append,
      List.map_cons, List.map_append, List.append_nil, List.map_nil]
    rw [pairAll_cons, pair_opener hopen, Option.bind_some, pairAll_append, pairAll_rowLeaves ih,
      Option.bind_some, pairAll_cons, pair_closer (isCloser_of_ending? hc)]
    rfl
  | @prefixed p bs k ts hp hbs _ ih =>
    intro awaited
    simp only [leaves, rowLeaves, rowLeaves_append, rowLeaves_map_leaf, List.cons_append,
      List.nil_append, List.map_cons, List.map_append, List.append_nil]
    rw [pairAll_prefix_blanks hp hbs]
    exact ih awaited
  | @dangling p bs hp hbs =>
    intro awaited
    have hpairs := pairAll_prefix_blanks hp hbs awaited []
    rw [List.append_nil] at hpairs
    simp only [leaves, rowLeaves, rowLeaves_map_leaf, List.cons_append, List.nil_append,
      List.map_cons]
    rw [hpairs]
    rfl

end Tree

namespace Grammar

open SexpEdit.Tree Kind

mutual

/-- Where the delimiters of a form and what follows pair, the form is `Tidy` and what follows
pairs. -/
theorem IsForm.tidy_of_pairAll {rest : List Token} {t : Tree} : IsForm rest t →
    ∀ {awaited : List Kind}, pairAll awaited ((t.leaves ++ rest).map Token.kind) = some [] →
      Tidy t ∧ pairAll awaited (rest.map Token.kind) = some []
  | @IsForm.atom rest t ht, awaited, h => by
    refine ⟨.atom ht, ?_⟩
    rw [← h]
    exact (pairAll_cons_of_not_delimiter (not_delimiter_of_isAtomic ht) _ _).symm
  | @IsForm.closed rest o c k es ho hc hes, awaited, h => by
    have hopen : o.kind.closer? = some c.kind := by rw [closer?_eq_ending? ho, hc]
    simp only [leaves, rowLeaves, rowLeaves_append, List.cons_append, List.nil_append,
      List.append_assoc, List.append_nil, List.map_cons] at h
    rw [pairAll_cons, pair_opener hopen, Option.bind_some] at h
    have hinner : (c.kind :: awaited).head? = k.ending? := hc.symm
    obtain ⟨htidy, hrest⟩ := hes.tidy_of_pairAll hinner h
    rw [List.map_cons, pairAll_cons, pair_closer (isCloser_of_ending? hc),
      Option.bind_some] at hrest
    exact ⟨.closed ho hc htidy, hrest⟩
  | @IsForm.unclosed o k es ho hes, awaited, h => by
    obtain ⟨c, hc⟩ : ∃ c, k.ending? = some c := by
      rw [← closer?_eq_ending? ho]
      cases hk : o.kind <;> rw [hk] at ho <;> cases ho <;> exact ⟨_, rfl⟩
    have hopen : o.kind.closer? = some c := by rw [closer?_eq_ending? ho, hc]
    simp only [leaves, rowLeaves, List.cons_append, List.nil_append, List.map_cons] at h
    rw [pairAll_cons, pair_opener hopen, Option.bind_some] at h
    -- the closer is still awaited at the end
    have hinner : (c :: awaited).head? = k.ending? := hc.symm
    obtain ⟨-, hrest⟩ := hes.tidy_of_pairAll hinner h
    cases hrest
  | @IsForm.prefixed rest p bs t hp hbs ht, awaited, h => by
    simp only [leaves, rowLeaves, rowLeaves_append, rowLeaves_map_leaf, List.cons_append,
      List.nil_append, List.append_assoc, List.append_nil, List.map_cons] at h
    rw [List.map_append, pairAll_prefix_blanks hp hbs] at h
    obtain ⟨htidy, hrest⟩ := ht.tidy_of_pairAll h
    obtain ⟨k, ts, rfl⟩ := ht.exists_node
    exact ⟨.prefixed hp hbs htidy, hrest⟩
  | @IsForm.dangling rest p bs hp hbs _, awaited, h => by
    simp only [leaves, rowLeaves, rowLeaves_map_leaf, List.cons_append, List.nil_append,
      List.map_cons] at h
    rw [List.map_append, pairAll_prefix_blanks hp hbs] at h
    exact ⟨.dangling hp hbs, h⟩

/-- Where the delimiters of a row and what follows pair, the trees of the row are `Tidy` and what
follows pairs. -/
theorem IsRow.tidy_of_pairAll {inner : Option Kind} {rest : List Token} {ts : List Tree} :
    IsRow inner rest ts → ∀ {awaited : List Kind}, awaited.head? = inner →
      pairAll awaited ((rowLeaves ts ++ rest).map Token.kind) = some [] →
      (∀ t ∈ ts, Tidy t) ∧ pairAll awaited (rest.map Token.kind) = some []
  | .nil, _, _, h => ⟨fun t ht => absurd ht List.not_mem_nil, h⟩
  | @IsRow.trivia inner rest t ts ht hts, awaited, hinner, h => by
    have hskip := pairAll_cons_of_not_delimiter (not_delimiter_of_isTrivia ht) awaited
    have htail := (hskip _).symm.trans h
    obtain ⟨htidy, hrest⟩ := hts.tidy_of_pairAll hinner htail
    exact ⟨List.forall_mem_cons.mpr ⟨.trivia ht, htidy⟩, hrest⟩
  | @IsRow.error inner rest t ts ht hne _, awaited, hinner, h => by
    have h : (pair awaited t.kind).bind _ = some [] := (pairAll_cons awaited t.kind _).symm.trans h
    obtain ⟨awaited', hpair, -⟩ := Option.bind_eq_some_iff.mp h
    -- a closer that is taken is the one awaited
    refine absurd ?_ hne
    rw [← hinner, eq_cons_of_pair_closer ht hpair]
    rfl
  | @IsRow.form inner rest t ts ht hts, awaited, hinner, h => by
    rw [rowLeaves, List.append_assoc] at h
    obtain ⟨htidy, hmid⟩ := ht.tidy_of_pairAll h
    obtain ⟨htidies, hrest⟩ := hts.tidy_of_pairAll hinner hmid
    exact ⟨List.forall_mem_cons.mpr ⟨htidy, htidies⟩, hrest⟩

end

end Grammar

/-! ### Balanced texts -/

namespace Text

/-- No backslash stands outside strings and comments. -/
def NoLooseBackslash (cs : List Char) : Prop :=
  ∀ t ∈ Token.scan cs, ¬t.HasLooseBackslash

instance (cs : List Char) : Decidable (NoLooseBackslash cs) :=
  inferInstanceAs (Decidable (∀ t ∈ Token.scan cs, ¬t.HasLooseBackslash))

theorem Balanced.settled {cs : List Char} (h : Balanced cs) (hback : NoLooseBackslash cs) :
    Token.Settled (Token.scan cs) where
  plain t ht :=
    ⟨Token.spelled_of_mem_scan ht, Token.scan_text_ne_nil ht, h.2 t ht, hback t ht⟩
  chain := Token.isChain_scan cs

theorem rowLeaves_of_parse_eq {cs : List Char} {ts : List Tree}
    (h : Tree.parse cs = .node .root ts) : Tree.rowLeaves ts = Token.scan cs := by
  have hleaves : (Tree.parse cs).leaves = Token.scan cs := Tree.leaves_read _
  rw [h] at hleaves
  exact hleaves

/-- The tree of a text whose nodes are sound is a row of `Tidy` trees. -/
theorem exists_tidy_of_sound {cs : List Char} (h : ∀ f ∈ (Document.ofText cs).nodes,
    f.kind ≠ .error ∧ (f.isCollection → f.isClosed)) :
    ∃ ts, Tree.parse cs = .node .root ts ∧ ∀ t ∈ ts, t.Tidy := by
  obtain ⟨ts, hparse, hrow⟩ : IsDocument (Tree.parse cs) := Tree.read_isDocument _
  have hsound : (Tree.node .root ts).Sound := by
    rw [← hparse]
    exact Form.forall_mem_within_iff.mp h
  exact ⟨ts, hparse, hrow.tidy fun t ht => hsound.child ht⟩

/-- **The nodes of a text are sound when its tokens pair**, as `Kind.pairAll` reads them. -/
theorem sound_iff_pairAll (cs : List Char) :
    (∀ f ∈ (Document.ofText cs).nodes, f.kind ≠ .error ∧ (f.isCollection → f.isClosed)) ↔
      Kind.pairAll [] ((Token.scan cs).map Token.kind) = some [] := by
  constructor
  · intro h
    obtain ⟨ts, hparse, htidy⟩ := exists_tidy_of_sound h
    rw [← rowLeaves_of_parse_eq hparse]
    exact Tree.pairAll_rowLeaves (fun t ht => (htidy t ht).pairAll_leaves) []
  · intro hpairs
    obtain ⟨ts, hparse, hrow⟩ : IsDocument (Tree.parse cs) := Tree.read_isDocument _
    rw [← rowLeaves_of_parse_eq hparse, ← List.append_nil (Tree.rowLeaves ts)] at hpairs
    obtain ⟨htidy, -⟩ := hrow.tidy_of_pairAll rfl hpairs
    have hsound : (Tree.parse cs).Sound := by
      rw [hparse]
      exact Tree.sound_node ⟨by decide, fun h => by cases h⟩ fun t ht => (htidy t ht).sound
    exact Form.forall_mem_within_iff.mpr hsound

/-- The tree of a balanced text is a row of `Tidy` trees. -/
theorem Balanced.exists_tidy {cs : List Char} (h : Balanced cs) :
    ∃ ts, Tree.parse cs = .node .root ts ∧ ∀ t ∈ ts, t.Tidy :=
  exists_tidy_of_sound h.1

theorem Balanced.pairAll_scan {cs : List Char} (h : Balanced cs) :
    Kind.pairAll [] ((Token.scan cs).map Token.kind) = some [] :=
  (sound_iff_pairAll cs).mp h.1

/-- **A text is balanced and has no loose backslash when a watch reads it to the end and waits for
nothing then**: it `Watch.Reads` the text. -/
theorem balanced_iff_reads (cs : List Char) :
    Balanced cs ∧ NoLooseBackslash cs ↔ Watch.Reads [] cs [] := by
  constructor
  · rintro ⟨h, hback⟩
    have hreads := Watch.reads_tokens (h.settled hback) h.pairAll_scan
    rw [Token.scan_text] at hreads
    exact hreads
  · intro h
    obtain ⟨hplain, hpairs⟩ := h.tokens
    exact ⟨⟨(sound_iff_pairAll cs).mpr hpairs, fun t ht => (hplain t ht).terminated⟩,
      fun t ht => (hplain t ht).no_backslash⟩

end Text

end SexpEdit
