/-
The collections that hold an offset.

In a balanced text the closers that are still awaited at an offset are those of the collections that
hold it, the innermost first.  `Tallies` says so of a row of trees, whatever is around the row, and
it is built up with the row.

* `Tallies.append`, `Tallies.node`, `Tallies.collection` — how rows and nodes keep the tally;
* `Text.Balanced.tallies` — the trees of a balanced text keep it;
* `Document.not_holds_of_innermost?` — nothing inside the innermost collection holds the offset.
-/
import SexpEdit.Proofs.Modes
import SexpEdit.Proofs.Segment

namespace SexpEdit

open SexpEdit.Tree Kind
open Token (Spelled scan widthOf)

namespace Form

/-! ### Nodes and offsets -/

theorem rowWithin_append (around : List Site) : ∀ (ts us : List Tree) (start : Nat),
    rowWithin around start (ts ++ us) =
      rowWithin around start ts ++ rowWithin around (start + rowWidth ts) us
  | [], us, start => rfl
  | t :: ts, us, start => by
    rw [List.cons_append, rowWithin, rowWithin, rowWithin_append around ts us, rowWidth,
      List.append_assoc, Nat.add_assoc]

/-- The closers of the collections among `fs` that hold `offset`, the last one first. -/
def awaitedAt (fs : List Form) (offset : Nat) : List Kind :=
  ((fs.filter fun f => f.isCollection && f.holds offset).filterMap fun f => f.kind.ending?).reverse

theorem awaitedAt_append (fs gs : List Form) (offset : Nat) :
    awaitedAt (fs ++ gs) offset = awaitedAt gs offset ++ awaitedAt fs offset := by
  rw [awaitedAt, List.filter_append, List.filterMap_append, List.reverse_append, awaitedAt,
    awaitedAt]

theorem awaitedAt_eq_nil {fs : List Form} {offset : Nat}
    (h : ∀ f ∈ fs, f.isCollection → ¬f.holds offset) : awaitedAt fs offset = [] := by
  have hfilter : fs.filter (fun f => f.isCollection && f.holds offset) = [] := by
    refine List.filter_eq_nil_iff.mpr fun f hf => ?_
    rw [Bool.and_eq_true]
    rintro ⟨hk, hh⟩
    exact h f hf hk hh
  rw [awaitedAt, hfilter]
  rfl

theorem awaitedAt_cons_of_not_isCollection {f : Form} (hf : ¬f.isCollection) (fs : List Form)
    (offset : Nat) : awaitedAt (f :: fs) offset = awaitedAt fs offset := by
  rw [awaitedAt, List.filter_cons_of_neg (by simp [hf]), awaitedAt]

end Form

/-- The tokens `us` are those that end up to an offset, when the tokens `vs` follow. -/
def Token.Upto (offset : Nat) (us vs : List Token) : Prop :=
  widthOf us ≤ offset ∧ ∀ v ∈ vs.head?, offset < widthOf us + v.text.length

namespace Token.Upto

variable {offset : Nat} {us vs : List Token}

theorem zero {v : Token} (h : offset < v.text.length) (vs : List Token) :
    Upto offset [] (v :: vs) := by
  refine ⟨Nat.zero_le _, ?_⟩
  rintro w ⟨⟩
  rw [widthOf_nil]
  omega

/-- The tokens `ws` put in front move the offset by their `widthOf`. -/
theorem append_left {ws : List Token} (h : Upto (offset - widthOf ws) us vs)
    (hle : widthOf ws ≤ offset) : Upto offset (ws ++ us) vs := by
  obtain ⟨hup, hlast⟩ := h
  refine ⟨?_, ?_⟩
  · rw [widthOf_append]
    omega
  · intro v hv
    have hlt := hlast v hv
    rw [widthOf_append]
    omega

/-- The tokens `ws` put behind matter only to an offset that all the tokens before them end up
to. -/
theorem append_right {ws : List Token} (h : Upto offset us vs)
    (hws : ∀ w ∈ ws.head?, offset < widthOf (us ++ vs) + w.text.length) :
    Upto offset us (vs ++ ws) := by
  refine ⟨h.1, ?_⟩
  cases vs with
  | nil =>
    rw [List.append_nil] at hws
    exact hws
  | cons v vs => exact h.2

end Token.Upto

namespace Tree

open Form (awaitedAt rowWithin)

/-- In a row of trees the collections that hold an offset are those whose closers are awaited
there. -/
structure Tallies (ts : List Tree) : Prop where
  pairs : ∀ awaited, pairAll awaited ((rowLeaves ts).map Token.kind) = some awaited
  inside : ∀ around start, ∀ f ∈ rowWithin around start ts, f.isCollection →
    start < f.innerStart ∧ f.innerStop < start + rowWidth ts
  awaits : ∀ around start offset, offset ≤ rowWidth ts → ∃ us vs, rowLeaves ts = us ++ vs ∧
    Token.Upto offset us vs ∧ ∀ awaited, pairAll awaited (us.map Token.kind) =
      some (awaitedAt (rowWithin around start ts) (start + offset) ++ awaited)

namespace Tallies

theorem nil : Tallies [] := by
  refine ⟨fun _ => rfl, ?_, ?_⟩
  · intro around start f hf
    cases hf
  · intro around start offset h
    exact ⟨[], [], rfl, ⟨Nat.zero_le _, by simp⟩, fun _ => rfl⟩

/-- Before a row that `Tallies` and from its end on nothing in it holds an offset. -/
theorem awaitedAt_outside {ts : List Tree} (h : Tallies ts) {around : List Site}
    {start offset : Nat} (hout : offset ≤ start ∨ start + rowWidth ts ≤ offset) :
    awaitedAt (rowWithin around start ts) offset = [] := by
  refine Form.awaitedAt_eq_nil fun f hf hk => ?_
  obtain ⟨hlow, hhigh⟩ := h.inside around start f hf hk
  rw [Form.holds, Bool.and_eq_true, decide_eq_true_eq, decide_eq_true_eq]
  omega

theorem append {ts us : List Tree} (hts : Tallies ts) (hus : Tallies us) : Tallies (ts ++ us) := by
  refine ⟨?_, ?_, ?_⟩
  · intro awaited
    rw [rowLeaves_append, List.map_append, pairAll_append, hts.pairs, Option.bind_some, hus.pairs]
  · intro around start f hf hk
    rw [Form.rowWithin_append] at hf
    rw [rowWidth_append]
    rcases List.mem_append.mp hf with hf | hf
    · obtain ⟨hlow, hhigh⟩ := hts.inside around start f hf hk
      exact ⟨hlow, by omega⟩
    · obtain ⟨hlow, hhigh⟩ := hus.inside around _ f hf hk
      exact ⟨by omega, by omega⟩
  · intro around start offset hle
    rw [rowWidth_append] at hle
    rw [rowLeaves_append, Form.rowWithin_append]
    by_cases hlt : offset < rowWidth ts
    · -- the offset is in the first part, and nothing of the second one starts before it
      obtain ⟨xs, ys, hsplit, hupto, hpairs⟩ := hts.awaits around start offset (Nat.le_of_lt hlt)
      have hwidth : widthOf (xs ++ ys) = rowWidth ts := by rw [← hsplit, rowWidth_eq, widthOf]
      refine ⟨xs, ys ++ rowLeaves us, by rw [hsplit, List.append_assoc],
        hupto.append_right fun w _ => by omega, ?_⟩
      intro awaited
      have hout : awaitedAt (rowWithin around (start + rowWidth ts) us) (start + offset) = [] :=
        hus.awaitedAt_outside (.inl (by omega))
      rw [Form.awaitedAt_append, hout, List.nil_append, hpairs]
    · obtain ⟨xs, ys, hsplit, hupto, hpairs⟩ :=
        hus.awaits around (start + rowWidth ts) (offset - rowWidth ts) (by omega)
      have hwidth : widthOf (rowLeaves ts) = rowWidth ts := (rowWidth_eq ts).symm
      rw [← hwidth] at hupto
      refine ⟨rowLeaves ts ++ xs, ys, by rw [hsplit, List.append_assoc],
        hupto.append_left (by omega), ?_⟩
      intro awaited
      have hout : awaitedAt (rowWithin around start ts) (start + offset) = [] :=
        hts.awaitedAt_outside (.inr (by omega))
      have hoffset : start + rowWidth ts + (offset - rowWidth ts) = start + offset := by omega
      rw [Form.awaitedAt_append, hout, List.append_nil, List.map_append, pairAll_append,
        hts.pairs, Option.bind_some, hpairs, hoffset]

/-- A token that is no delimiter. -/
theorem leaf {t : Token} (ht : t.kind.closer? = none ∧ t.kind.isCloser = false) :
    Tallies [.leaf t] := by
  have hpairs : ∀ awaited, pairAll awaited [t.kind] = some awaited := fun awaited =>
    pairAll_cons_of_not_delimiter ht awaited []
  refine ⟨hpairs, ?_, ?_⟩
  · intro around start f hf
    cases hf
  · intro around start offset hle
    have hle : offset ≤ t.text.length := by simpa [rowWidth, width] using hle
    by_cases hlt : offset < t.text.length
    · exact ⟨[], [t], rfl, .zero hlt [], fun _ => rfl⟩
    · refine ⟨[t], [], rfl, ⟨?_, by simp⟩, hpairs⟩
      simp only [Token.widthOf_cons, Token.widthOf_nil]
      omega

/-- A node that is no collection holds nothing itself. -/
theorem node {k : Kind} (hk : ¬k.isCollection) {ts : List Tree} (h : Tallies ts) :
    Tallies [.node k ts] := by
  have hleaves : rowLeaves [.node k ts] = rowLeaves ts := by simp [rowLeaves, leaves]
  have hwidth : rowWidth [.node k ts] = rowWidth ts := by simp [rowWidth, width]
  have hnodes : ∀ around start, rowWithin around start [.node k ts] =
      Form.ofNode k start ts around :: rowWithin (Site.ofNode k start ts :: around) start ts := by
    intro around start
    rw [rowWithin, Form.within, rowWithin, List.append_nil]
  refine ⟨by rw [hleaves]; exact h.pairs, ?_, ?_⟩
  · intro around start f hf hf'
    rw [hnodes] at hf
    rw [hwidth]
    rcases List.mem_cons.mp hf with rfl | hf
    · exact absurd hf' hk
    · exact h.inside _ start f hf hf'
  · intro around start offset hle
    rw [hwidth] at hle
    have hself : ¬(Form.ofNode k start ts around).isCollection := hk
    rw [hleaves, hnodes, Form.awaitedAt_cons_of_not_isCollection hself]
    exact h.awaits _ start offset hle

end Tallies

end Tree

namespace Form

/-- A collection with its delimiters, each of one character, around the row `es`. -/
structure Brackets (f : Form) (o : Token) (es : List Tree) (c : Token) : Prop where
  children : f.children = .leaf o :: (es ++ [.leaf c])
  opener : o.kind.collection? = some f.kind
  closer : f.kind.ending? = some c.kind
  opener_length : o.text.length = 1
  closer_length : c.text.length = 1

namespace Brackets

variable {f : Form} {o c : Token} {es : List Tree}

theorem isCollection (h : f.Brackets o es c) : f.isCollection :=
  Kind.isCollection_of_collection? h.opener

theorem isClosed (h : f.Brackets o es c) : f.isClosed := by
  have hclosed : (ofNode f.kind 0 f.children []).isClosed := by
    rw [h.children]
    exact isClosed_ofNode h.opener h.closer
  exact hclosed

theorem opening_length (h : f.Brackets o es c) : f.opening.length = 1 := by
  have hk := h.isCollection
  rw [Form.isCollection] at hk
  rw [opening]
  cases hkind : f.kind <;> rw [hkind] at hk <;> cases hk <;> rfl

theorem closing_length (h : f.Brackets o es c) : f.closing.length = 1 := by
  have hk := h.isCollection
  rw [Form.isCollection] at hk
  rw [closing]
  cases hkind : f.kind <;> rw [hkind] at hk <;> cases hk <;> rfl

theorem stop_eq (h : f.Brackets o es c) : f.stop = f.start + 1 + rowWidth es + 1 := by
  have hstop : f.stop = f.start + rowWidth f.children := f.stop_eq
  have ho := h.opener_length
  have hc := h.closer_length
  rw [hstop, h.children]
  simp only [rowWidth, rowWidth_append, width]
  omega

theorem innerStart_eq (h : f.Brackets o es c) : f.innerStart = f.start + 1 := by
  rw [innerStart, h.opening_length]

theorem innerStop_eq (h : f.Brackets o es c) : f.innerStop = f.start + 1 + rowWidth es := by
  rw [innerStop, if_pos h.isClosed, h.stop_eq, h.closing_length]
  rfl

/-- The nodes inside a collection that `Brackets` a row are those of the row. -/
theorem rowWithin_children (h : f.Brackets o es c) (around : List Site) :
    rowWithin around f.start f.children = rowWithin around (f.start + 1) es := by
  have hleaf : ∀ start, rowWithin around start [.leaf c] = [] := fun start => rfl
  rw [h.children, rowWithin, rowWithin_append, hleaf, List.append_nil, within, List.nil_append,
    width, h.opener_length]

theorem nodes_eq (h : f.Brackets o es c) :
    f.nodes = inRow (f.toSite :: f.around) (f.start + 1) es := by
  rw [nodes, h.children, inRow, inRow_append, h.opener_length]
  simp [inRow]

theorem holds_iff (h : f.Brackets o es c) (offset : Nat) :
    f.holds offset = true ↔ f.start < offset ∧ offset < f.stop := by
  rw [holds, Bool.and_eq_true, decide_eq_true_eq, decide_eq_true_eq, h.innerStart_eq,
    h.innerStop_eq, h.stop_eq]
  omega

/-- Between its delimiters the closer of the collection is awaited last. -/
theorem awaitedAt_cons (h : f.Brackets o es c) (fs : List Form) (offset : Nat) :
    awaitedAt (f :: fs) offset =
      awaitedAt fs offset ++ if f.start < offset ∧ offset < f.stop then [c.kind] else [] := by
  rw [← List.singleton_append, awaitedAt_append]
  congr 1
  by_cases hin : f.start < offset ∧ offset < f.stop
  · have hself : [f].filter (fun g => g.isCollection && g.holds offset) = [f] := by
      simp [h.isCollection, (h.holds_iff offset).mpr hin]
    rw [if_pos hin, awaitedAt, hself]
    simp [h.closer]
  · rw [if_neg hin]
    refine awaitedAt_eq_nil fun g hg _ hh => ?_
    obtain rfl := List.mem_singleton.mp hg
    exact hin ((h.holds_iff offset).mp hh)

end Brackets

end Form

namespace Tree

open Form (awaitedAt rowWithin)

/-- A collection holds what is between its delimiters, so it `Tallies` as its row does. -/
theorem Tallies.collection {o c : Token} {k : Kind} {es : List Tree}
    (ho : o.kind.collection? = some k) (hc : k.ending? = some c.kind) (hol : o.text.length = 1)
    (hcl : c.text.length = 1) (h : Tallies es) :
    Tallies [.node k (.leaf o :: (es ++ [.leaf c]))] := by
  let ts := Tree.leaf o :: (es ++ [.leaf c])
  have hbrackets : ∀ around start, (Form.ofNode k start ts around).Brackets o es c :=
    fun around start => ⟨rfl, ho, hc, hol, hcl⟩
  have hopen : o.kind.closer? = some c.kind := by rw [closer?_eq_ending? ho, hc]
  have hcloser := pair_closer (isCloser_of_ending? hc)
  have hleaves : rowLeaves [.node k ts] = o :: (rowLeaves es ++ [c]) := by
    simp [ts, rowLeaves, leaves]
  have hwidth : rowWidth [.node k ts] = rowWidth es + 2 := by
    simp only [ts, rowWidth, rowWidth_append, width]
    omega
  have hnodes : ∀ around start, rowWithin around start [.node k ts] =
      Form.ofNode k start ts around ::
        rowWithin (Site.ofNode k start ts :: around) (start + 1) es := by
    intro around start
    rw [rowWithin, Form.within, rowWithin, List.append_nil]
    exact congrArg _ ((hbrackets around start).rowWithin_children _)
  have hpairs : ∀ awaited, pairAll awaited ((o :: (rowLeaves es ++ [c])).map Token.kind) =
      some awaited := by
    intro awaited
    rw [List.map_cons, pairAll_cons, pair_opener hopen, Option.bind_some, List.map_append,
      pairAll_append, h.pairs, Option.bind_some, List.map_singleton, pairAll_cons, hcloser]
    rfl
  refine ⟨by rw [hleaves]; exact hpairs, ?_, ?_⟩
  · intro around start f hf hk
    rw [hnodes] at hf
    rw [hwidth]
    rcases List.mem_cons.mp hf with rfl | hf
    · rw [(hbrackets around start).innerStart_eq, (hbrackets around start).innerStop_eq]
      show start < start + 1 ∧ start + 1 + rowWidth es < start + (rowWidth es + 2)
      omega
    · obtain ⟨hlow, hhigh⟩ := h.inside _ (start + 1) f hf hk
      exact ⟨by omega, by omega⟩
  · intro around start offset hle
    rw [hwidth] at hle
    rw [hleaves, hnodes]
    have hself := (hbrackets around start).awaitedAt_cons
      (rowWithin (Site.ofNode k start ts :: around) (start + 1) es) (start + offset)
    have hstop := (hbrackets around start).stop_eq
    have hstart : (Form.ofNode k start ts around).start = start := rfl
    rw [hself, hstop, hstart]
    by_cases hin : 1 ≤ offset ∧ offset ≤ rowWidth es + 1
    · -- inside, the closer comes below those that the row awaits
      obtain ⟨us, vs, hsplit, hupto, hrow⟩ :=
        h.awaits (Site.ofNode k start ts :: around) (start + 1) (offset - 1) (by omega)
      have hoffset : start + 1 + (offset - 1) = start + offset := by omega
      have hall : widthOf (us ++ vs) = rowWidth es := by rw [← hsplit, rowWidth_eq, widthOf]
      have hone : widthOf [o] = 1 := by rw [Token.widthOf_cons, Token.widthOf_nil, hol]
      have hbehind : Token.Upto (offset - 1) us (vs ++ [c]) := by
        refine hupto.append_right ?_
        rintro w ⟨⟩
        omega
      rw [← hone] at hbehind
      refine ⟨[o] ++ us, vs ++ [c], by rw [hsplit]; simp, hbehind.append_left (by omega), ?_⟩
      intro awaited
      rw [List.singleton_append, List.map_cons, pairAll_cons, pair_opener hopen, Option.bind_some,
        hrow, hoffset, if_pos (by omega), List.append_assoc]
      rfl
    · have hrow : awaitedAt (rowWithin (Site.ofNode k start ts :: around) (start + 1) es)
          (start + offset) = [] := h.awaitedAt_outside (by omega)
      rw [hrow, if_neg (by omega)]
      by_cases hzero : offset = 0
      · exact ⟨[], o :: (rowLeaves es ++ [c]), rfl, .zero (by omega) _, fun _ => rfl⟩
      · refine ⟨o :: (rowLeaves es ++ [c]), [], (List.append_nil _).symm, ⟨?_, by simp⟩, hpairs⟩
        have hall : widthOf (rowLeaves es) = rowWidth es := (rowWidth_eq es).symm
        simp only [Token.widthOf_cons, Token.widthOf_append, Token.widthOf_nil]
        omega

/-- A row of tokens that are no delimiters. -/
theorem Tallies.map_leaf {ts : List Token}
    (h : ∀ t ∈ ts, t.kind.closer? = none ∧ t.kind.isCloser = false) :
    Tallies (ts.map .leaf) := by
  induction ts with
  | nil => exact .nil
  | cons t ts ih =>
    exact (leaf (h t (by simp))).append (ih fun u hu => h u (by simp [hu]))

/-- A prefix and the blanks after it. -/
theorem Tallies.prefix_blanks {p : Token} {bs : List Token} (hp : p.kind = .readerPrefix)
    (hbs : ∀ b ∈ bs, b.kind = .whitespace ∨ b.kind = .newline) :
    Tallies (.leaf p :: bs.map .leaf) := by
  have h : ∀ t ∈ p :: bs, t.kind.closer? = none ∧ t.kind.isCloser = false := by
    intro t ht
    refine not_delimiter_of_prefix_or_blank ?_
    rcases List.mem_cons.mp ht with rfl | ht
    · exact .inl hp
    · exact .inr (hbs t ht)
  exact map_leaf h

theorem Tallies.of_forall {ts : List Tree} (h : ∀ t ∈ ts, Tallies [t]) : Tallies ts := by
  induction ts with
  | nil => exact .nil
  | cons t ts ih => exact (h t (by simp)).append (ih fun u hu => h u (by simp [hu]))

/-- **A `Tidy` tree of a scan `Tallies`.** -/
theorem Tidy.tallies {t : Tree} (h : Tidy t) :
    (∀ u ∈ t.leaves, Spelled u.kind u.text) → Tallies [t] := by
  induction h with
  | trivia ht =>
    intro _
    exact .leaf (not_delimiter_of_isTrivia ht)
  | @atom t ht =>
    intro _
    exact .node (by decide) (.leaf (not_delimiter_of_isAtomic ht))
  | @closed o c k es ho hc _ ih =>
    intro hspelled
    have hk := Kind.isCollection_of_collection? ho
    have hone : k.opening.length = 1 ∧ k.closing.length = 1 := by
      cases k <;> cases hk <;> exact ⟨rfl, rfl⟩
    have hopening := (hspelled o (by simp [leaves, rowLeaves])).text_opener ho
    have hclosing := (hspelled c (by simp [leaves, rowLeaves])).text_closer hc
    refine .collection ho hc (by rw [hopening, hone.1]) (by rw [hclosing, hone.2]) ?_
    refine .of_forall fun e he => ih e he fun u hu => hspelled u ?_
    obtain ⟨xs, ys, rfl⟩ := List.append_of_mem he
    simp [leaves, rowLeaves, hu]
  | @prefixed p bs k us hp hbs _ ih =>
    intro hspelled
    have hform : Tallies [.node k us] := by
      refine ih fun u hu => hspelled u ?_
      rw [leaves] at hu
      simp [leaves, rowLeaves, hu]
    exact .node (by decide) ((Tallies.prefix_blanks hp hbs).append hform)
  | @dangling p bs hp hbs =>
    intro _
    exact .node (by decide) (.prefix_blanks hp hbs)

end Tree

/-- The trees of a `Balanced` text keep the tally. -/
theorem Text.Balanced.tallies {cs : List Char} (h : Balanced cs) :
    ∃ ts, Tree.parse cs = .node .root ts ∧ (∀ t ∈ ts, Tidy t) ∧ Tallies ts := by
  obtain ⟨ts, hparse, htidy⟩ := h.exists_tidy
  refine ⟨ts, hparse, htidy, .of_forall fun t ht => (htidy t ht).tallies fun u hu => ?_⟩
  have hmem : u ∈ scan cs := by
    rw [← rowLeaves_of_parse_eq hparse]
    obtain ⟨xs, ys, rfl⟩ := List.append_of_mem ht
    simp [rowLeaves, hu]
  exact Token.spelled_of_mem_scan hmem

/-! ### The innermost collection -/

namespace Form

mutual

/-- In preorder the nodes inside a node come right after it. -/
theorem exists_inside_of_within : ∀ {t : Tree} {around : List Site} {start : Nat}
    {fs gs : List Form} {f : Form}, within around start t = fs ++ f :: gs →
      ∃ hs, gs = rowWithin (f.toSite :: f.around) f.start f.children ++ hs
  | .leaf _, _, _, fs, gs, f, h => by simp [within] at h
  | .node k ts, around, start, fs, gs, f, h => by
    rw [within] at h
    cases fs with
    | nil =>
      obtain ⟨rfl, rfl⟩ := List.cons.inj h
      exact ⟨[], (List.append_nil _).symm⟩
    | cons g fs => exact exists_inside_of_rowWithin (List.cons.inj h).2

theorem exists_inside_of_rowWithin : ∀ {ts : List Tree} {around : List Site} {start : Nat}
    {fs gs : List Form} {f : Form}, rowWithin around start ts = fs ++ f :: gs →
      ∃ hs, gs = rowWithin (f.toSite :: f.around) f.start f.children ++ hs
  | [], _, _, fs, gs, f, h => by simp [rowWithin] at h
  | t :: ts, around, start, fs, gs, f, h => by
    rw [rowWithin] at h
    rcases List.append_eq_append_iff.mp h with ⟨m, rfl, hm⟩ | ⟨m, hm, hm'⟩
    · exact exists_inside_of_rowWithin hm
    · cases m with
      | nil =>
        have hrest : rowWithin around (start + t.width) ts = [] ++ f :: gs := hm'.symm
        exact exists_inside_of_rowWithin hrest
      | cons g m =>
        obtain ⟨rfl, rfl⟩ := List.cons.inj hm'
        obtain ⟨hs, rfl⟩ := exists_inside_of_within hm
        exact ⟨hs ++ _, List.append_assoc _ _ _⟩

end

end Form

namespace Document

open Form (rowWithin)

theorem exists_of_getLast?_filter {p : Form → Bool} {f : Form} : ∀ {fs : List Form},
    (fs.filter p).getLast? = some f → ∃ gs hs, fs = gs ++ f :: hs ∧ ∀ g ∈ hs, ¬p g := by
  intro fs
  induction fs using List.reverseRecOn with
  | nil =>
    intro h
    cases h
  | append_singleton fs g ih =>
    intro h
    by_cases hg : p g
    · rw [List.filter_append, List.filter_cons_of_pos hg, List.filter_nil,
        List.getLast?_concat] at h
      obtain rfl := Option.some.inj h
      exact ⟨fs, [], rfl, by simp⟩
    · rw [List.filter_append, List.filter_cons_of_neg hg, List.filter_nil, List.append_nil] at h
      obtain ⟨gs, hs, rfl, hall⟩ := ih h
      refine ⟨gs, hs ++ [g], by simp, fun g' hg' => ?_⟩
      rcases List.mem_append.mp hg' with hg' | hg'
      · exact hall g' hg'
      · rwa [List.mem_singleton.mp hg']

/-- The `innermost?` collection is a node of the document and holds the offset, and nothing inside
it does. -/
theorem innermost?_eq_some {d : Document} {offset : Nat} {f : Form}
    (h : d.innermost? offset = some f) :
    f ∈ d.nodes ∧ f.isCollection ∧ f.holds offset ∧
      ∀ g ∈ rowWithin (f.toSite :: f.around) f.start f.children, g.isCollection →
        ¬g.holds offset := by
  rw [innermost?] at h
  have hmem := List.mem_filter.mp (List.mem_of_getLast? h)
  rw [Bool.and_eq_true] at hmem
  obtain ⟨gs, hs, hsplit, hall⟩ := exists_of_getLast?_filter h
  refine ⟨hmem.1, hmem.2.1, hmem.2.2, fun g hg hk hh => ?_⟩
  rw [d.nodes_eq] at hsplit
  obtain ⟨hs', rfl⟩ := Form.exists_inside_of_within hsplit
  exact hall g (List.mem_append_left _ hg) (by simp [hk, hh])

/-- Without an `innermost?` collection no collection holds the offset. -/
theorem innermost?_eq_none {d : Document} {offset : Nat} (h : d.innermost? offset = none) :
    ∀ g ∈ d.nodes, g.isCollection → ¬g.holds offset := by
  rw [innermost?, List.getLast?_eq_none_iff, List.filter_eq_nil_iff] at h
  intro g hg hk hh
  exact h g hg (by simp [hk, hh])

end Document

end SexpEdit
