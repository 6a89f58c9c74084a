/-
The delimiters in a region.

A range that leaves every form whole has both delimiters of a collection in it or none of them, and
both quotes of a string or none.  So the delimiters in the range, read from left to right, pair among
themselves as brackets do, and a pair is a collection that lies in the range.  A closer that closes
nothing belongs to no collection and is left out.

* `Nested` — words of delimiters that nest, with the places of the pairs;
* `Nested.unique` — the word determines the pairs;
* `Tree.Paired` — in a row the delimiters of a range pair as its collections do, and what rows of the
  grammar are built from keeps it so;
* `Document.balanced_region_pairs` — the region check keeps delimiters paired.
-/
import SexpEdit.Proofs.Nesting

namespace SexpEdit

open SexpEdit.Tree Grammar
open Kind (pairAll)
open Token (scan Spelled)

/-! ### Words of delimiters -/

theorem Kind.isCloser_of_closer? {o c : Kind} (h : o.closer? = some c) : c.isCloser := by
  cases o <;> cases h <;> rfl

theorem Kind.isOpener_of_collection? {o k : Kind} (h : o.collection? = some k) : o.isOpener := by
  cases o <;> cases h <;> rfl

/-- A word of delimiters that nest, with the offsets of those that pair, in the order of the
openers. -/
inductive Nested : List Leaf → List (Nat × Nat) → Prop
  | nil : Nested [] []
  | pair {o c : Leaf} {inner rest : List Leaf} {ps qs : List (Nat × Nat)} :
      o.kind.closer? = some c.kind → Nested inner ps → Nested rest qs →
      Nested (o :: (inner ++ c :: rest)) ((o.start, c.start) :: (ps ++ qs))

namespace Nested

variable {w v : List Leaf} {ps qs : List (Nat × Nat)}

theorem append (hw : Nested w ps) (hv : Nested v qs) : Nested (w ++ v) (ps ++ qs) := by
  induction hw with
  | nil => exact hv
  | @pair o c inner rest ps ps' hc hinner _ _ ih =>
    have h := pair hc hinner ih
    simpa only [List.cons_append, List.append_assoc] using h

/-- A word that is `Nested` leaves the awaited closers as they are. -/
theorem pairAll_map_kind (h : Nested w ps) :
    ∀ awaited, pairAll awaited (w.map Leaf.kind) = some awaited := by
  induction h with
  | nil =>
    intro awaited
    rfl
  | @pair o c inner rest ps ps' hc _ _ ihinner ihrest =>
    intro awaited
    rw [List.map_cons, List.map_append, List.map_cons, Kind.pairAll_cons, Kind.pair_opener hc,
      Option.bind_some, Kind.pairAll_append, ihinner, Option.bind_some, Kind.pairAll_cons,
      Kind.pair_closer (Kind.isCloser_of_closer? hc), Option.bind_some, ihrest]

/-- A word that is `Nested` does not go on with a closer. -/
theorem not_closer_behind {c : Leaf} (hw : Nested w ps) (h : Nested (w ++ c :: v) qs) :
    ¬c.kind.isCloser := by
  intro hc
  have hall := h.pairAll_map_kind []
  rw [List.map_append, List.map_cons, Kind.pairAll_append, hw.pairAll_map_kind, Option.bind_some,
    Kind.pairAll_cons] at hall
  obtain ⟨rest, hrest, -⟩ := Option.bind_eq_some_iff.mp hall
  cases Kind.eq_cons_of_pair_closer hc hrest

/-- What is inside the first pair of a `Nested` word ends at its closer. -/
theorem split_unique {c c' : Leaf} {rest rest' : List Leaf} (hw : Nested w ps) (hv : Nested v qs)
    (hc : c.kind.isCloser) (hc' : c'.kind.isCloser) (h : w ++ c :: rest = v ++ c' :: rest') :
    w = v ∧ c = c' ∧ rest = rest' := by
  rcases List.append_eq_append_iff.mp h with ⟨m, rfl, hm⟩ | ⟨m, rfl, hm⟩
  · cases m with
    | nil => exact ⟨(List.append_nil w).symm, List.cons.inj hm⟩
    | cons x m =>
      -- the longer word would go on with the closer `c` where the shorter one ends
      obtain ⟨rfl, -⟩ := List.cons.inj hm
      exact absurd hc (hw.not_closer_behind hv)
  · cases m with
    | nil =>
      obtain ⟨hx, hrest⟩ := List.cons.inj hm
      exact ⟨List.append_nil v, hx.symm, hrest.symm⟩
    | cons x m =>
      obtain ⟨rfl, -⟩ := List.cons.inj hm
      exact absurd hc' (hv.not_closer_behind hw)

/-- The word `w` determines the pairs. -/
theorem unique (h : Nested w ps) : ∀ {qs : List (Nat × Nat)}, Nested w qs → ps = qs := by
  induction h with
  | nil =>
    intro qs hqs
    cases hqs
    rfl
  | @pair o c inner rest ps ps' hc hinner hrest ihinner ihrest =>
    intro qs hqs
    generalize hw : o :: (inner ++ c :: rest) = w at hqs
    cases hqs with
    | nil => cases hw
    | @pair o' c' inner' rest' qs qs' hc' hinner' hrest' =>
      obtain ⟨rfl, htail⟩ := List.cons.inj hw
      obtain ⟨rfl, rfl, rfl⟩ := hinner.split_unique hinner' (Kind.isCloser_of_closer? hc)
        (Kind.isCloser_of_closer? hc') htail
      rw [ihinner hinner', ihrest hrest']

end Nested

/-! ### Delimiters and collections in a range -/

namespace Leaf

/-- A delimiter of a collection.  A closer that closes nothing is none. -/
def isDelimiter (l : Leaf) : Bool :=
  (l.kind.isOpener || l.kind.isCloser) && l.parent?.any Form.isCollection

/-- The delimiters among the tokens `ls` that lie between `start` and `stop`. -/
def delimitersIn (start stop : Nat) (ls : List Leaf) : List Leaf :=
  ls.filter fun l => l.isDelimiter && start ≤ l.start && l.stop ≤ stop

variable {start stop : Nat} {l : Leaf} {ls ms : List Leaf}

theorem delimitersIn_append :
    delimitersIn start stop (ls ++ ms) = delimitersIn start stop ls ++ delimitersIn start stop ms :=
  List.filter_append ls ms

theorem delimitersIn_cons_of_inside (hl : l.isDelimiter) (hstart : start ≤ l.start)
    (hstop : l.stop ≤ stop) :
    delimitersIn start stop (l :: ls) = l :: delimitersIn start stop ls :=
  List.filter_cons_of_pos (by simp [hl, hstart, hstop])

theorem delimitersIn_cons_of_outside (h : ¬(start ≤ l.start ∧ l.stop ≤ stop)) :
    delimitersIn start stop (l :: ls) = delimitersIn start stop ls :=
  List.filter_cons_of_neg (by simpa [and_assoc] using fun _ => h)

theorem delimitersIn_singleton (hl : l.isDelimiter = false) : delimitersIn start stop [l] = [] :=
  List.filter_cons_of_neg (by simp [hl])

theorem isDelimiter_of_plain (h : l.kind.closer? = none ∧ l.kind.isCloser = false) :
    l.isDelimiter = false := by
  have hopener : l.kind.isOpener = false := by
    cases hk : l.kind <;> rw [hk] at h <;> first | rfl | cases h.1
  rw [isDelimiter, hopener, h.2]
  rfl

theorem rowWithin_append (around : List Site) : ∀ (ts us : List Tree) (start : Nat),
    rowWithin around start (ts ++ us) =
      rowWithin around start ts ++ rowWithin around (start + rowWidth ts) us
  | [], us, start => rfl
  | t :: ts, us, start => by
    rw [List.cons_append, rowWithin, rowWithin, rowWithin_append around ts us, rowWidth,
      List.append_assoc, Nat.add_assoc]

end Leaf

namespace Form

/-- The collections among the nodes `fs` that lie between `start` and `stop`, each as the offsets of
its delimiters. -/
def collectionsIn (start stop : Nat) (fs : List Form) : List (Nat × Nat) :=
  (fs.filter fun f => f.isCollection && start ≤ f.start && f.stop ≤ stop).map fun f =>
    (f.start, f.innerStop)

variable {start stop : Nat} {f : Form} {fs gs : List Form}

theorem collectionsIn_append :
    collectionsIn start stop (fs ++ gs) =
      collectionsIn start stop fs ++ collectionsIn start stop gs := by
  rw [collectionsIn, List.filter_append, List.map_append, collectionsIn, collectionsIn]

theorem collectionsIn_cons_of_inside (hk : f.isCollection) (hstart : start ≤ f.start)
    (hstop : f.stop ≤ stop) :
    collectionsIn start stop (f :: fs) = (f.start, f.innerStop) :: collectionsIn start stop fs := by
  rw [collectionsIn, List.filter_cons_of_pos (by simp [hk, hstart, hstop]), List.map_cons,
    collectionsIn]

theorem collectionsIn_cons_of_outside
    (h : ¬(f.isCollection ∧ start ≤ f.start ∧ f.stop ≤ stop)) :
    collectionsIn start stop (f :: fs) = collectionsIn start stop fs := by
  rw [collectionsIn, List.filter_cons_of_neg (by simpa [and_assoc] using h), collectionsIn]

end Form

namespace Form.Brackets

open Leaf (delimitersIn)

variable {f : Form} {o c : Token} {es : List Tree} {start stop : Nat}

/-- The tokens of a collection that `Brackets` a row are its opener, those of the row, and its
closer. -/
theorem leaves_children (h : f.Brackets o es c) (around : List Site) :
    Leaf.rowWithin around f.start f.children =
      ⟨o, f.start, around⟩ ::
        (Leaf.rowWithin around (f.start + 1) es ++ [⟨c, f.innerStop, around⟩]) := by
  rw [h.children, Leaf.rowWithin, Leaf.within, Leaf.rowWithin_append, width, h.opener_length,
    h.innerStop_eq]
  rfl

/-- The opener `o` and the closer `c` are delimiters. -/
theorem isDelimiter {l : Leaf} (h : f.Brackets o es c) (haround : l.around = f.toSite :: f.around)
    (hl : l.token = o ∨ l.token = c) : l.isDelimiter := by
  have hparent : l.parent? = some f := by
    rw [Leaf.parent?, haround]
  rw [Leaf.isDelimiter, Bool.and_eq_true, Bool.or_eq_true, hparent, Leaf.kind]
  refine ⟨?_, h.isCollection⟩
  rcases hl with hl | hl
  · rw [hl]
    exact .inl (Kind.isOpener_of_collection? h.opener)
  · rw [hl]
    exact .inr (Kind.isCloser_of_ending? h.closer)

/-- A range that has the collection in it has both delimiters in it. -/
theorem delimitersIn_of_covered (h : f.Brackets o es c) (hstart : start ≤ f.start)
    (hstop : f.stop ≤ stop) :
    delimitersIn start stop (Leaf.rowWithin (f.toSite :: f.around) f.start f.children) =
      ⟨o, f.start, f.toSite :: f.around⟩ ::
        (delimitersIn start stop (Leaf.rowWithin (f.toSite :: f.around) (f.start + 1) es) ++
          [⟨c, f.innerStop, f.toSite :: f.around⟩]) := by
  have hends := h.stop_eq
  have hinner := h.innerStop_eq
  have ho := h.opener_length
  have hc := h.closer_length
  rw [h.leaves_children, Leaf.delimitersIn_cons_of_inside (h.isDelimiter rfl (.inl rfl)) hstart,
    Leaf.delimitersIn_append, Leaf.delimitersIn_cons_of_inside (h.isDelimiter rfl (.inr rfl))]
  · rfl
  · show start ≤ f.innerStop
    omega
  · show f.innerStop + c.text.length ≤ stop
    omega
  · show f.start + o.text.length ≤ stop
    omega

/-- Any other range that leaves the collection `Spared` has no delimiter of it: it is apart from the
collection, or between its delimiters. -/
theorem delimitersIn_of_not_covered (h : f.Brackets o es c) (hspared : f.Spared start stop)
    (hnot : ¬(start ≤ f.start ∧ f.stop ≤ stop)) :
    delimitersIn start stop (Leaf.rowWithin (f.toSite :: f.around) f.start f.children) =
      delimitersIn start stop (Leaf.rowWithin (f.toSite :: f.around) (f.start + 1) es) := by
  have hends := h.stop_eq
  have hinner := h.innerStop_eq
  have ho := h.opener_length
  have hc := h.closer_length
  rw [Spared, Surrounds, if_pos h.isCollection, h.innerStart_eq, or_iff_right hnot] at hspared
  have hfirst : ¬(start ≤ f.start ∧ f.start + o.text.length ≤ stop) := by omega
  have hlast : ¬(start ≤ f.innerStop ∧ f.innerStop + c.text.length ≤ stop) := by omega
  rw [h.leaves_children, Leaf.delimitersIn_cons_of_outside hfirst, Leaf.delimitersIn_append,
    Leaf.delimitersIn_cons_of_outside hlast]
  exact List.append_nil _

end Form.Brackets

/-! ### Rows of trees -/

namespace Tree

open Form (ofNode collectionsIn)
open Leaf (delimitersIn)

/-- In a row where every collection is closed and left whole by a range, the delimiters in the range
nest, and the pairs are the collections that lie in it. -/
def Paired (start stop : Nat) (ts : List Tree) : Prop :=
  ∀ around s, (∀ f ∈ Form.rowWithin around s ts, f.isCollection →
      f.isClosed ∧ f.Spared start stop) →
    Nested (delimitersIn start stop (Leaf.rowWithin around s ts))
      (collectionsIn start stop (Form.rowWithin around s ts))

namespace Paired

variable {start stop : Nat} {ts us : List Tree}

theorem nil : Paired start stop [] := by
  intro around s _
  exact .nil

theorem append (hts : Paired start stop ts) (hus : Paired start stop us) :
    Paired start stop (ts ++ us) := by
  intro around s h
  rw [Form.rowWithin_append] at h ⊢
  rw [Leaf.rowWithin_append, Leaf.delimitersIn_append, Form.collectionsIn_append]
  exact (hts around s fun f hf => h f (List.mem_append_left _ hf)).append
    (hus around _ fun f hf => h f (List.mem_append_right _ hf))

/-- A token that is no delimiter. -/
theorem leaf {t : Token} (ht : t.kind.closer? = none ∧ t.kind.isCloser = false) :
    Paired start stop [.leaf t] := by
  intro around s _
  have hword : delimitersIn start stop (Leaf.rowWithin around s [.leaf t]) = [] :=
    Leaf.delimitersIn_singleton (Leaf.isDelimiter_of_plain ht)
  rw [hword]
  exact .nil

theorem map_leaf {ts : List Token}
    (h : ∀ t ∈ ts, t.kind.closer? = none ∧ t.kind.isCloser = false) :
    Paired start stop (ts.map .leaf) := by
  induction ts with
  | nil => exact nil
  | cons t ts ih => exact (leaf (h t (by simp))).append (ih fun u hu => h u (by simp [hu]))

/-- A prefix and the blanks after it. -/
theorem prefix_blanks {p : Token} {bs : List Token} (hp : p.kind = .readerPrefix)
    (hbs : ∀ b ∈ bs, b.kind = .whitespace ∨ b.kind = .newline) :
    Paired start stop (.leaf p :: bs.map .leaf) := by
  have h : ∀ t ∈ p :: bs, t.kind.closer? = none ∧ t.kind.isCloser = false := by
    intro t ht
    refine Kind.not_delimiter_of_prefix_or_blank ?_
    rcases List.mem_cons.mp ht with rfl | ht
    · exact .inl hp
    · exact .inr (hbs t ht)
  exact map_leaf h

/-- A node without delimiters of its own is `Paired` when its row is. -/
theorem node {k : Kind} (hk : ¬k.isCollection) (h : Paired start stop ts) :
    Paired start stop [.node k ts] := by
  intro around s hforms
  have hnodes : Form.rowWithin around s [.node k ts] =
      ofNode k s ts around :: Form.rowWithin (Site.ofNode k s ts :: around) s ts := by
    rw [Form.rowWithin, Form.within, Form.rowWithin, List.append_nil]
  have hleaves : Leaf.rowWithin around s [.node k ts] =
      Leaf.rowWithin (Site.ofNode k s ts :: around) s ts := by
    rw [Leaf.rowWithin, Leaf.within, Leaf.rowWithin, List.append_nil]
  have hself : ¬(ofNode k s ts around).isCollection := hk
  rw [hnodes] at hforms ⊢
  rw [hleaves, Form.collectionsIn_cons_of_outside fun h => hself h.1]
  exact h _ s fun f hf => hforms f (List.mem_cons_of_mem _ hf)

/-- A closer that closes nothing is left out. -/
theorem error (t : Token) : Paired start stop [.node .error [.leaf t]] := by
  intro around s _
  have hword : delimitersIn start stop (Leaf.rowWithin around s [.node .error [.leaf t]]) = [] := by
    refine Leaf.delimitersIn_singleton ?_
    -- its parent is the error node, which is no collection
    rw [Leaf.isDelimiter, Bool.and_eq_false_iff]
    exact .inr rfl
  have hnodes : collectionsIn start stop (Form.rowWithin around s [.node .error [.leaf t]]) = [] :=
    Form.collectionsIn_cons_of_outside fun h => by cases h.1
  rw [hword, hnodes]
  exact .nil

/-- A collection with its delimiters is a pair when the range has it in it, and otherwise adds
nothing. -/
theorem collection {o c : Token} {k : Kind} {es : List Tree} (ho : o.kind.collection? = some k)
    (hc : k.ending? = some c.kind) (hol : o.text.length = 1) (hcl : c.text.length = 1)
    (h : Paired start stop es) : Paired start stop [.node k (.leaf o :: (es ++ [.leaf c]))] := by
  intro around s hforms
  let f := ofNode k s (.leaf o :: (es ++ [.leaf c])) around
  have hbrackets : f.Brackets o es c := ⟨rfl, ho, hc, hol, hcl⟩
  have hleaves : Leaf.rowWithin around s [.node k (.leaf o :: (es ++ [.leaf c]))] =
      Leaf.rowWithin (f.toSite :: f.around) f.start f.children := by
    rw [Leaf.rowWithin, Leaf.within, Leaf.rowWithin, List.append_nil]
    rfl
  have hnodes : Form.rowWithin around s [.node k (.leaf o :: (es ++ [.leaf c]))] =
      f :: Form.rowWithin (f.toSite :: f.around) (f.start + 1) es := by
    rw [Form.rowWithin, Form.within, Form.rowWithin, List.append_nil]
    exact congrArg _ (hbrackets.rowWithin_children _)
  rw [hnodes] at hforms
  have hinner := h (f.toSite :: f.around) (f.start + 1) fun g hg =>
    hforms g (List.mem_cons_of_mem _ hg)
  have hspared := (hforms f List.mem_cons_self hbrackets.isCollection).2
  rw [hnodes, hleaves]
  by_cases hin : start ≤ f.start ∧ f.stop ≤ stop
  · rw [hbrackets.delimitersIn_of_covered hin.1 hin.2,
      Form.collectionsIn_cons_of_inside hbrackets.isCollection hin.1 hin.2]
    have hpair : o.kind.closer? = some c.kind := by rw [Kind.closer?_eq_ending? ho, hc]
    have hnested := Nested.pair (o := ⟨o, f.start, f.toSite :: f.around⟩)
      (c := ⟨c, f.innerStop, f.toSite :: f.around⟩) hpair hinner .nil
    rw [List.append_nil] at hnested
    exact hnested
  · rw [hbrackets.delimitersIn_of_not_covered hspared hin,
      Form.collectionsIn_cons_of_outside fun h => hin h.2]
    exact hinner

end Paired

end Tree

namespace Grammar

variable {start stop : Nat}

mutual

/-- In an `IsForm` the delimiters of a range are `Paired`. -/
theorem IsForm.paired {rest : List Token} {t : Tree} : IsForm rest t →
    (∀ u ∈ t.leaves, Spelled u.kind u.text) → Paired start stop [t]
  | .atom ht, _ => .node (by decide) (.leaf (Kind.not_delimiter_of_isAtomic ht))
  | @IsForm.closed rest o c k es ho hc hes, hspelled => by
    have hlengths := Form.length_delimiters (Kind.isCollection_of_collection? ho)
    have hopening := (hspelled o (by simp [leaves, rowLeaves])).text_opener ho
    have hclosing := (hspelled c (by simp [leaves, rowLeaves])).text_closer hc
    refine .collection ho hc (by rw [hopening, hlengths.1]) (by rw [hclosing, hlengths.2]) ?_
    exact hes.paired fun u hu => hspelled u (by simp [leaves, rowLeaves, hu])
  | @IsForm.unclosed o k es ho hes, _ => by
    intro around s hforms
    have hmem : Form.ofNode k s (.leaf o :: es) around ∈
        Form.rowWithin around s [.node k (.leaf o :: es)] := by
      rw [Form.rowWithin, Form.within]
      exact List.mem_append_left _ List.mem_cons_self
    -- the collection itself has to be closed, and its row ends without the closer
    have hclosed := (hforms _ hmem (Kind.isCollection_of_collection? ho)).1
    exact absurd hclosed (hes.not_isClosed ho)
  | @IsForm.prefixed rest p bs t hp hbs ht, hspelled => by
    have hoperand : Paired start stop [t] :=
      ht.paired fun u hu => hspelled u (by simp [leaves, rowLeaves, hu])
    exact .node (by decide) ((Paired.prefix_blanks hp hbs).append hoperand)
  | .dangling hp hbs _, _ => .node (by decide) (.prefix_blanks hp hbs)

theorem IsRow.paired {inner : Option Kind} {rest : List Token} {ts : List Tree} :
    IsRow inner rest ts → (∀ u ∈ rowLeaves ts, Spelled u.kind u.text) → Paired start stop ts
  | .nil, _ => .nil
  | .trivia ht hts, hspelled =>
    (Paired.leaf (Kind.not_delimiter_of_isTrivia ht)).append
      (hts.paired fun u hu => hspelled u (by simp [rowLeaves, hu]))
  | .error _ _ hts, hspelled =>
    (Paired.error _).append (hts.paired fun u hu => hspelled u (by simp [rowLeaves, hu]))
  | .form ht hts, hspelled =>
    (ht.paired fun u hu => hspelled u (by simp [rowLeaves, hu])).append
      (hts.paired fun u hu => hspelled u (by simp [rowLeaves, hu]))

end

end Grammar

/-! ### The region check -/

namespace Form.Placed

variable {d : Document} {f : Form}

/-- The characters of a node are those that the document has, by `charAt?`, from its start on. -/
theorem charAt?_eq (h : Placed d.tree f) {i : Nat} (hi : i < f.text.length) :
    d.charAt? (f.start + i) = f.text[i]? := by
  have hstop := f.stop_eq_start_add
  rw [Document.charAt?, ← h.slice_eq, Text.slice, List.getElem?_drop,
    List.getElem?_take_of_lt (by omega)]

/-- A terminated string has a quote at either end. -/
theorem quotes (h : Placed d.tree f) (hstring : f.isTerminatedString) :
    f.start + 1 < f.stop ∧ d.charAt? f.start = some '"' ∧ d.charAt? (f.stop - 1) = some '"' := by
  obtain ⟨t, hchildren, -⟩ := h.exists_token_of_atom (kind_of_isAtomOf hstring)
  have hleaves : rowLeaves f.children = [t] := by rw [hchildren, rowLeaves, rowLeaves, leaves]; rfl
  have hkind : t.kind = .string := by
    rw [isTerminatedString, isAtomOf, Bool.and_eq_true, firstKind?, hchildren] at hstring
    exact beq_iff_eq.mp hstring.2
  have hspelled : Spelled .string f.text := by
    rw [text, hleaves, List.flatMap_singleton, ← hkind]
    exact h.spelled_of_mem (by rw [hleaves]; exact List.mem_singleton_self t)
  have hchar := fun i => h.charAt?_eq (i := i)
  have hstop := f.stop_eq_start_add
  generalize f.text = cs at hspelled hchar hstop
  cases hspelled with
  | delimiter hglyph => cases hglyph
  | @string body _ =>
    -- the last quote comes after the first one and the body
    have hlength : ('"' :: (body ++ ['"'])).length = body.length + 2 := by simp
    refine ⟨by omega, hchar 0 (by omega), ?_⟩
    have hlast : f.stop - 1 = f.start + (body.length + 1) := by omega
    rw [hlast, hchar _ (by omega), List.getElem?_cons_succ, List.getElem?_concat_length]

end Form.Placed

/-- The range `start..stop` has all of `a..b` in it. -/
def Covers (start stop a b : Nat) : Prop :=
  start ≤ a ∧ b ≤ stop

namespace Form

variable {f : Form} {start stop : Nat}

/-- A range leaves a closed collection `Spared` when it has both delimiters in it or none. -/
theorem Framed.spared_iff (h : f.Framed) (hk : f.isCollection) (hclosed : f.isClosed) :
    f.Spared start stop ↔
      (Covers start stop f.start f.innerStart ↔ Covers start stop f.innerStop f.stop) := by
  have hstart := h.innerStart_eq
  have hstop := h.innerStop_of_isClosed hclosed
  have hinner := h.inner_bounds
  rw [Spared, Surrounds, if_pos hk, Covers, Covers]
  omega

/-- A range leaves a terminated string `Spared` when it has both quotes in it or none. -/
theorem spared_iff_of_isTerminatedString (hlong : f.start + 1 < f.stop)
    (hstring : f.isTerminatedString) :
    f.Spared start stop ↔
      (Covers start stop f.start (f.start + 1) ↔ Covers start stop (f.stop - 1) f.stop) := by
  have hatom : f.kind = .atom := kind_of_isAtomOf hstring
  have hk : ¬f.isCollection := by
    rw [isCollection, hatom]
    decide
  have hs : f.isString := by
    rw [isTerminatedString, isAtomOf, Bool.and_eq_true, Option.any_eq_true] at hstring
    obtain ⟨-, k, hfirst, hstring⟩ := hstring
    rw [isString, isAtomOf, hatom, hfirst, beq_iff_eq.mp hstring]
    rfl
  rw [Spared, Surrounds, if_neg hk, if_pos hs, Covers, Covers]
  omega

end Form

namespace Document

variable {d : Document}

/-- The delimiters in a range that `isBalanced` are `Nested` as the collections in it are. -/
theorem nested_of_isBalanced {start stop : Nat}
    (hclosed : ∀ f ∈ d.nodes, f.isCollection → f.isClosed) (h : d.isBalanced start stop) :
    Nested (Leaf.delimitersIn start stop d.leaves) (Form.collectionsIn start stop d.nodes) := by
  obtain ⟨ts, htree, hrow⟩ := d.exists_row
  have hspelled : ∀ u ∈ rowLeaves ts, Spelled u.kind u.text := by
    intro u hu
    have hmem : u ∈ scan d.text := by
      rw [← d.leaves_tree, htree, Tree.leaves]
      exact hu
    exact Token.spelled_of_mem_scan hmem
  have hpaired : Paired start stop [d.tree] := by
    rw [htree]
    exact .node (by decide) (hrow.paired hspelled)
  have hnodes : Form.rowWithin [] 0 [d.tree] = d.nodes := by
    rw [Form.rowWithin, Form.rowWithin, List.append_nil, d.nodes_eq]
  have hleaves : Leaf.rowWithin [] 0 [d.tree] = d.leaves := by
    rw [Leaf.rowWithin, Leaf.rowWithin, List.append_nil, d.leaves_eq]
  have hnested := hpaired [] 0
  rw [hnodes, hleaves] at hnested
  refine hnested ?_
  intro f hf hk
  have hform : f ∈ d.forms := mem_forms_iff.mpr ⟨hf, Kind.isForm_of_isCollection hk⟩
  exact ⟨hclosed f hf hk, isBalanced_iff.mp h f hform⟩

/-- **The region check keeps delimiters paired.**  In a document where every collection is closed, a
range passes the check when it has both delimiters of every collection in it or none of them, and
both quotes of every terminated string or none of them, and leaves the other forms whole.  The
delimiters in such a range nest, and the pairs are the collections that lie in it and no others.  A
range that has just one delimiter of a collection in it, or just one quote of a terminated string,
does not pass. -/
theorem balanced_region_pairs (hclosed : ∀ f ∈ d.nodes, f.isCollection → f.isClosed)
    (start stop : Nat) :
    (∀ f ∈ d.forms, f.isTerminatedString → f.start + 1 < f.stop ∧
      d.charAt? f.start = some '"' ∧ d.charAt? (f.stop - 1) = some '"') ∧
    (d.isBalanced start stop ↔
      (∀ f ∈ d.forms, f.isCollection →
        (Covers start stop f.start f.innerStart ↔ Covers start stop f.innerStop f.stop)) ∧
      (∀ f ∈ d.forms, f.isTerminatedString →
        (Covers start stop f.start (f.start + 1) ↔ Covers start stop (f.stop - 1) f.stop)) ∧
      ∀ f ∈ d.forms, ¬f.isCollection → ¬f.isTerminatedString → f.Spared start stop) ∧
    (d.isBalanced start stop →
      ∀ pairs, Nested (Leaf.delimitersIn start stop d.leaves) pairs ↔
        pairs = Form.collectionsIn start stop d.nodes) ∧
    ((∃ f ∈ d.forms, f.isCollection ∧
        Xor (Covers start stop f.start f.innerStart) (Covers start stop f.innerStop f.stop) ∨
        f.isTerminatedString ∧
          Xor (Covers start stop f.start (f.start + 1)) (Covers start stop (f.stop - 1) f.stop)) →
      d.isBalanced start stop = false) := by
  have hplaced : ∀ f ∈ d.forms, Form.Placed d.tree f :=
    fun f hf => placed_of_mem_nodes (mem_forms_iff.mp hf).1
  have hquotes := fun f hf => (hplaced f hf).quotes
  have hcollection : ∀ f ∈ d.forms, f.isCollection → (f.Spared start stop ↔
      (Covers start stop f.start f.innerStart ↔ Covers start stop f.innerStop f.stop)) := by
    intro f hf hk
    exact ((hplaced f hf).framed hk).spared_iff hk (hclosed f (mem_forms_iff.mp hf).1 hk)
  have hstring : ∀ f ∈ d.forms, f.isTerminatedString → (f.Spared start stop ↔
      (Covers start stop f.start (f.start + 1) ↔ Covers start stop (f.stop - 1) f.stop)) := by
    intro f hf hs
    exact Form.spared_iff_of_isTerminatedString (hquotes f hf hs).1 hs
  refine ⟨hquotes, ?_, ?_, ?_⟩
  · rw [isBalanced_iff]
    constructor
    · intro h
      exact ⟨fun f hf hk => (hcollection f hf hk).mp (h f hf),
        fun f hf hs => (hstring f hf hs).mp (h f hf), fun f hf _ _ => h f hf⟩
    · rintro ⟨hpairs, hends, hothers⟩ f hf
      by_cases hk : f.isCollection
      · exact (hcollection f hf hk).mpr (hpairs f hf hk)
      · by_cases hs : f.isTerminatedString
        · exact (hstring f hf hs).mpr (hends f hf hs)
        · exact hothers f hf hk hs
  · intro h pairs
    have hnested := nested_of_isBalanced hclosed h
    constructor
    · intro hpairs
      exact hpairs.unique hnested
    · rintro rfl
      exact hnested
  · rintro ⟨f, hf, hone⟩
    rw [Bool.eq_false_iff]
    intro h
    have hspared := isBalanced_iff.mp h f hf
    rcases hone with ⟨hk, hone⟩ | ⟨hs, hone⟩
    · exact (xor_iff_not_iff _ _).mp hone ((hcollection f hf hk).mp hspared)
    · exact (xor_iff_not_iff _ _).mp hone ((hstring f hf hs).mp hspared)

/-- A list with a stray closer, a vector that has an opener in a string, and an empty list.  All that
is in the list passes the check; without the closer of the vector it does not. -/
theorem balanced_region_pairs_stray :
    let d := ofText "(a ] [b \"(\" 'c] ())".toList
    (∀ f ∈ d.nodes, f.isCollection → f.isClosed) ∧
    d.isBalanced 1 18 = true ∧ d.isBalanced 1 14 = false ∧
    (Leaf.delimitersIn 1 18 d.leaves).map Leaf.kind = [.lbracket, .rbracket, .lparen, .rparen] ∧
    Form.collectionsIn 1 18 d.nodes = [(5, 14), (16, 17)] ∧
    (∀ f ∈ d.forms, f.isTerminatedString → f.start + 1 < f.stop ∧
      d.charAt? f.start = some '"' ∧ d.charAt? (f.stop - 1) = some '"') ∧
    (d.isBalanced 1 18 ↔
      (∀ f ∈ d.forms, f.isCollection →
        (Covers 1 18 f.start f.innerStart ↔ Covers 1 18 f.innerStop f.stop)) ∧
      (∀ f ∈ d.forms, f.isTerminatedString →
        (Covers 1 18 f.start (f.start + 1) ↔ Covers 1 18 (f.stop - 1) f.stop)) ∧
      ∀ f ∈ d.forms, ¬f.isCollection → ¬f.isTerminatedString → f.Spared 1 18) ∧
    (d.isBalanced 1 18 →
      ∀ pairs, Nested (Leaf.delimitersIn 1 18 d.leaves) pairs ↔
        pairs = Form.collectionsIn 1 18 d.nodes) ∧
    ((∃ f ∈ d.forms, f.isCollection ∧
        Xor (Covers 1 18 f.start f.innerStart) (Covers 1 18 f.innerStop f.stop) ∨
        f.isTerminatedString ∧
          Xor (Covers 1 18 f.start (f.start + 1)) (Covers 1 18 (f.stop - 1) f.stop)) →
      d.isBalanced 1 18 = false) := by
  intro d
  have hclosed : ∀ f ∈ d.nodes, f.isCollection → f.isClosed := by decide +kernel
  exact ⟨hclosed, by decide +kernel, by decide +kernel, by decide +kernel, by decide +kernel,
    balanced_region_pairs hclosed 1 18⟩

end Document

end SexpEdit
