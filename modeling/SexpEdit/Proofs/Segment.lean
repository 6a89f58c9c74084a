/-
Segments of a balanced text.

A segment is a row of tidy trees in a balanced text, with the tokens before it and after it.  It can
be cut between any two trees.  Where a cut is not right after a comment, a watch is in code, and a
segment between two such cuts leaves the watch as it is.

* `Segment.left`, `Segment.right` — the parts of a segment are segments;
* `Segment.neutral` — a segment that does not end in a comment leaves a watch as it is;
* `Encloses` — what a collection in place is made of;
* `exists_encloses` — every collection of a balanced text is made so.
-/
import SexpEdit.Proofs.Placement

namespace SexpEdit

open SexpEdit.Tree
open Token (Settled Stops scan scan_text stops_append stops_append_singleton)

/-! ### The ends of a tidy tree -/

namespace Tree

/-- The first token of a `Tidy` node is no trivia. -/
theorem Tidy.exists_first {k : Kind} {ts : List Tree} (h : Tidy (.node k ts)) :
    ∃ u us, rowLeaves ts = u :: us ∧ u.kind.isTrivia = false := by
  cases h with
  | @atom t ht =>
    refine ⟨t, _, rfl, ?_⟩
    revert ht
    cases t.kind <;> simp [Kind.isAtomic, Kind.isTrivia]
  | @closed o c k es ho =>
    refine ⟨o, _, rfl, ?_⟩
    revert ho
    cases o.kind <;> simp [Kind.collection?, Kind.isTrivia]
  | @prefixed p bs k us hp =>
    refine ⟨p, _, rfl, ?_⟩
    rw [hp]
    rfl
  | @dangling p bs hp =>
    refine ⟨p, _, rfl, ?_⟩
    rw [hp]
    rfl

/-- The last token of a `Tidy` node is no comment, so `Stops` holds of its leaves. -/
theorem Tidy.stops {t : Tree} (h : Tidy t) : ∀ {k : Kind} {ts : List Tree}, t = .node k ts →
    Stops (rowLeaves ts) := by
  induction h with
  | trivia =>
    rintro k ts ⟨⟩
  | @atom t ht =>
    rintro k ts ⟨⟩
    refine (@stops_append_singleton [] t).mpr fun hk => ?_
    rw [hk] at ht
    cases ht
  | @closed o c k es _ hc =>
    rintro k ts ⟨⟩
    have hlast : rowLeaves (.leaf o :: (es ++ [.leaf c])) = (o :: rowLeaves es) ++ [c] := by
      simp [rowLeaves, leaves]
    rw [hlast, stops_append_singleton]
    intro hk
    rw [hk] at hc
    cases k <;> cases hc
  | @prefixed p bs k us _ _ ht ih =>
    rintro j ts ⟨⟩
    obtain ⟨u, vs, hus, -⟩ := ht.exists_first
    have hlast : rowLeaves (.leaf p :: (bs.map .leaf ++ [.node k us])) =
        (p :: bs) ++ rowLeaves us := by
      simp [rowLeaves, leaves]
    rw [hlast, stops_append (by simp [hus])]
    exact ih rfl
  | @dangling p bs hp hbs =>
    rintro k ts ⟨⟩
    intro u hu
    have hmem := List.mem_of_getLast? hu
    simp only [rowLeaves, leaves, rowLeaves_map_leaf, List.singleton_append, List.mem_cons] at hmem
    rcases hmem with rfl | hmem
    · simp [hp]
    · rcases hbs u hmem with h | h <;> simp [h]

end Tree

/-- The row `es` of tidy trees stands in a balanced text between the tokens `L` and `R`. -/
structure Segment (cs : List Char) (L : List Token) (es : List Tree) (R : List Token) : Prop where
  tokens : scan cs = L ++ (rowLeaves es ++ R)
  tidy : ∀ e ∈ es, Tidy e
  settled : Settled (scan cs)
  pairs : Kind.pairAll [] ((scan cs).map Token.kind) = some []

/-- The text of a row of trees. -/
def Tree.rowText (ts : List Tree) : List Char :=
  (rowLeaves ts).flatMap Token.text

@[simp] theorem Tree.rowText_append (ts us : List Tree) :
    rowText (ts ++ us) = rowText ts ++ rowText us := by
  simp only [rowText, rowLeaves_append, List.flatMap_append]

theorem Tree.length_rowText (ts : List Tree) : (rowText ts).length = rowWidth ts :=
  (rowWidth_eq ts).symm

namespace Segment

variable {cs : List Char} {L R : List Token} {es x y : List Tree}

theorem left (h : Segment cs L (x ++ y) R) : Segment cs L x (rowLeaves y ++ R) := by
  refine ⟨?_, fun e he => h.tidy e (by simp [he]), h.settled, h.pairs⟩
  rw [h.tokens, rowLeaves_append, List.append_assoc]

theorem right (h : Segment cs L (x ++ y) R) : Segment cs (L ++ rowLeaves x) y R := by
  refine ⟨?_, fun e he => h.tidy e (by simp [he]), h.settled, h.pairs⟩
  rw [h.tokens, rowLeaves_append]
  simp only [List.append_assoc]

theorem text_eq (h : Segment cs L es R) :
    cs = L.flatMap Token.text ++ (rowText es ++ R.flatMap Token.text) := by
  have htext := scan_text cs
  rw [h.tokens, List.flatMap_append, List.flatMap_append] at htext
  exact htext.symm

/-- Before a node no comment stands: `Stops` holds of the tokens `L`. -/
theorem stops_before {k : Kind} {us : List Tree} (h : Segment cs L (.node k us :: y) R) :
    Stops L := by
  obtain ⟨u, vs, hus, hu⟩ := (h.tidy (.node k us) (by simp)).exists_first
  have htokens : scan cs = L ++ u :: (vs ++ (rowLeaves y ++ R)) := by
    rw [h.tokens, rowLeaves, leaves, hus]
    simp
  have hsettled := h.settled
  rw [htokens] at hsettled
  exact hsettled.stops ((hsettled.plain u (by simp)).spelled.not_startsLineEnd hu)

/-- After a node no comment stands: `Stops` holds of the tokens up to there. -/
theorem stops_after {k : Kind} {us : List Tree} (h : Segment cs L (x ++ [.node k us]) R) :
    Stops (L ++ rowLeaves (x ++ [.node k us])) := by
  have htidy := h.tidy (.node k us) (by simp)
  obtain ⟨u, vs, hus, -⟩ := htidy.exists_first
  have hleaves : rowLeaves (x ++ [.node k us]) = rowLeaves x ++ rowLeaves us := by
    simp [rowLeaves, leaves]
  rw [hleaves, ← List.append_assoc, stops_append (by simp [hus])]
  exact htidy.stops rfl

theorem run_before (h : Segment cs L es R) (hL : Stops L) :
    ∃ awaited, Watch.run ⟨.code, []⟩ (L.flatMap Token.text) = some ⟨.code, awaited⟩ := by
  have hsettled := h.settled
  have hpairs := h.pairs
  rw [h.tokens] at hsettled hpairs
  rw [List.map_append, Kind.pairAll_append] at hpairs
  obtain ⟨awaited, hawaited, -⟩ := Option.bind_eq_some_iff.mp hpairs
  refine ⟨awaited, ?_⟩
  rw [Watch.run_tokens hsettled.left, hawaited, Watch.modeAfter_of_stops hL]
  rfl

/-- **A `Segment` that does not end in a comment is `Neutral`.** -/
theorem neutral (h : Segment cs L es R) (hend : Stops (L ++ rowLeaves es)) :
    Watch.Neutral .code (rowText es) := by
  intro awaited
  have hsettled := h.settled
  rw [h.tokens] at hsettled
  -- an empty row may follow a comment: nothing is asked of it then
  have hstops : Stops (rowLeaves es) := by
    intro t ht
    refine hend t ?_
    rw [List.getLast?_append, ht]
    rfl
  rw [rowText, Watch.run_tokens hsettled.right.left, Watch.modeAfter_of_stops hstops,
    pairAll_rowLeaves fun t ht => (h.tidy t ht).pairAll_leaves]
  rfl

theorem width_pos (h : Segment cs L es R) {e : Tree} (he : e ∈ es) : 0 < e.width := by
  obtain ⟨x, y, rfl⟩ := List.append_of_mem he
  -- a tidy tree has a token, and no token is empty
  obtain ⟨u, us, hu⟩ : ∃ u us, e.leaves = u :: us := by
    cases e with
    | leaf t => exact ⟨t, [], rfl⟩
    | node k ts =>
      obtain ⟨u, us, hus, -⟩ := (h.tidy (.node k ts) he).exists_first
      exact ⟨u, us, hus⟩
  have hplain := h.settled.plain u (by simp [h.tokens, rowLeaves, hu])
  have hpos := List.length_pos_iff.mpr hplain.ne_nil
  rw [width_eq, hu, List.flatMap_cons, List.length_append]
  omega

theorem tail {t : Tree} (h : Segment cs L (t :: y) R) : Segment cs (L ++ t.leaves) y R := by
  refine ⟨?_, fun e he => h.tidy e (by simp [he]), h.settled, h.pairs⟩
  rw [h.tokens, rowLeaves]
  simp only [List.append_assoc]

theorem neutral_node {k : Kind} {us : List Tree} (h : Segment cs L (.node k us :: y) R) :
    Watch.Neutral .code ((rowLeaves us).flatMap Token.text) := by
  have hhead : Segment cs L ([] ++ [.node k us]) (rowLeaves y ++ R) := @left cs L R [_] y h
  have hneutral := hhead.neutral hhead.stops_after
  simpa [rowText, rowLeaves, leaves] using hneutral

end Segment

/-! ### The trees of a balanced text -/

/-- The text `cs` is balanced, it has no loose backslash, and `ts` are its trees. -/
structure Laid (cs : List Char) (ts : List Tree) : Prop where
  parse : Tree.parse cs = .node .root ts
  segment : Segment cs [] ts []

theorem Text.Balanced.exists_laid {cs : List Char} (h : Balanced cs) (hback : NoLooseBackslash cs) :
    ∃ ts, Laid cs ts := by
  obtain ⟨ts, hparse, htidy⟩ := h.exists_tidy
  refine ⟨ts, hparse, ?_, htidy, h.settled hback, h.pairAll_scan⟩
  rw [rowLeaves_of_parse_eq hparse, List.append_nil, List.nil_append]

namespace Tree

theorem Tidy.isForm {k : Kind} {ts : List Tree} (h : Tidy (.node k ts)) : k.isForm := by
  cases h with
  | atom | prefixed | dangling => rfl
  | @closed o _ _ _ ho =>
    cases hk : o.kind <;> rw [hk] at ho <;> cases ho <;> rfl

theorem Tidy.exists_of_isCollection {k : Kind} {ts : List Tree} (h : Tidy (.node k ts))
    (hk : k.isCollection) : ∃ o es c, ts = .leaf o :: (es ++ [.leaf c]) ∧
      o.kind.collection? = some k ∧ k.ending? = some c.kind ∧ ∀ e ∈ es, Tidy e := by
  cases h with
  | atom | prefixed | dangling => cases hk
  | closed ho hc hes => exact ⟨_, _, _, rfl, ho, hc, hes⟩

end Tree

namespace Form

variable {cs : List Char} {ts : List Tree} {f g : Form}

theorem Placed.exists_segment (h : Laid cs ts) (hf : Placed (.node .root ts) f)
    (hne : f.around ≠ []) : ∃ L R, Segment cs L [.node f.kind f.children] R ∧
      f.start = (L.flatMap Token.text).length := by
  obtain ⟨L, R, hleaves, hstart⟩ := hf.exists_context
  rcases hf.tidy h.segment.tidy with rfl | ⟨-, htidy⟩
  · exact absurd rfl hne
  · refine ⟨L, R, ⟨?_, by simpa using htidy, h.segment.settled, h.segment.pairs⟩, hstart⟩
    have htokens : scan cs = rowLeaves ts := (Text.rowLeaves_of_parse_eq h.parse).symm
    rw [htokens]
    simpa [rowLeaves, leaves] using hleaves

/-- A form whose inside is the row `es`, from after the tokens `L` to before the tokens `R`. -/
structure Contains (cs : List Char) (f : Form) (L : List Token) (es : List Tree) (R : List Token) :
    Prop where
  segment : Segment cs L es R
  stops : Stops L
  forms : f.forms = inRow (f.toSite :: f.around) (L.flatMap Token.text).length es

theorem filter_inRow_isForm {around : List Site} {start : Nat} {es : List Tree}
    (h : ∀ e ∈ es, Tidy e) :
    (inRow around start es).filter (·.kind.isForm) = inRow around start es := by
  refine List.filter_eq_self.mpr fun g hg => ?_
  obtain ⟨x, y, rfl, -⟩ := exists_of_mem_inRow hg
  exact (h (.node g.kind g.children) (by simp)).isForm

theorem root_eq_ofNode (h : Laid cs ts) : (Document.ofText cs).root = ofNode .root 0 ts [] := by
  unfold Document.root Document.ofText
  simp only [h.parse]

theorem contains_root (h : Laid cs ts) : (ofNode .root 0 ts []).Contains cs [] ts [] :=
  ⟨h.segment, Token.stops_nil, filter_inRow_isForm h.segment.tidy⟩

/-- A collection in place: the opener, the row inside and the closer, between the tokens `L` and
`R`. -/
structure Encloses (cs : List Char) (f : Form) (L : List Token) (o : Token) (es : List Tree)
    (c : Token) (R : List Token) : Prop where
  children : f.children = .leaf o :: (es ++ [.leaf c])
  opener : o.kind.collection? = some f.kind
  closer : f.kind.ending? = some c.kind
  start : f.start = (L.flatMap Token.text).length
  outer : Segment cs L [.node f.kind f.children] R
  tidy : ∀ e ∈ es, Tidy e

/-- Every collection of a balanced text has an opener, a row inside and a closer: it `Encloses` the
row. -/
theorem Placed.exists_encloses (h : Laid cs ts) (hf : Placed (.node .root ts) f)
    (hk : f.isCollection) : ∃ L o es c R, f.Encloses cs L o es c R := by
  rcases hf.tidy h.segment.tidy with rfl | ⟨hne, htidy⟩
  · cases hk
  · obtain ⟨o, es, c, hchildren, ho, hc, hes⟩ := htidy.exists_of_isCollection hk
    obtain ⟨L, R, hseg, hstart⟩ := hf.exists_segment h hne
    exact ⟨L, o, es, c, R, hchildren, ho, hc, hstart, hseg, hes⟩

namespace Encloses

variable {L R : List Token} {o c : Token} {es : List Tree}

theorem inner (h : f.Encloses cs L o es c R) : Segment cs (L ++ [o]) es (c :: R) := by
  refine ⟨?_, h.tidy, h.outer.settled, h.outer.pairs⟩
  rw [h.outer.tokens, h.children]
  simp [rowLeaves, leaves]

theorem plain_opener (h : f.Encloses cs L o es c R) : o.Plain :=
  h.inner.settled.plain o (by simp [h.inner.tokens])

theorem plain_closer (h : f.Encloses cs L o es c R) : c.Plain :=
  h.inner.settled.plain c (by simp [h.inner.tokens])

theorem opening_eq (h : f.Encloses cs L o es c R) : o.text = f.opening :=
  h.plain_opener.spelled.text_opener h.opener

theorem closing_eq (h : f.Encloses cs L o es c R) : c.text = f.closing :=
  h.plain_closer.spelled.text_closer h.closer

theorem form_text_eq (h : f.Encloses cs L o es c R) :
    f.text = f.opening ++ (rowText es ++ f.closing) := by
  rw [← h.opening_eq, ← h.closing_eq, Form.text, h.children]
  simp [rowLeaves, leaves, rowText]

theorem isCollection (h : f.Encloses cs L o es c R) : f.kind.isCollection :=
  Kind.isCollection_of_collection? h.opener

theorem isClosed (h : f.Encloses cs L o es c R) : f.isClosed := by
  have hclosed : (ofNode f.kind 0 f.children []).isClosed := by
    rw [h.children]
    exact isClosed_ofNode h.opener h.closer
  exact hclosed

/-- The interior starts in code, behind the opener `o`. -/
theorem stops_start (h : f.Encloses cs L o es c R) : Stops (L ++ [o]) := by
  refine stops_append_singleton.mpr fun hk => ?_
  have ho := h.opener
  rw [hk] at ho
  cases ho

/-- The interior ends in code: the closer `c` cannot be in a comment. -/
theorem stops_end (h : f.Encloses cs L o es c R) : Stops ((L ++ [o]) ++ rowLeaves es) := by
  have hsettled := h.inner.settled
  rw [h.inner.tokens, ← List.append_assoc] at hsettled
  have hcloser := Kind.isCloser_of_ending? h.closer
  have htrivia : c.kind.isTrivia = false := by
    revert hcloser
    cases c.kind <;> simp [Kind.isCloser, Kind.isTrivia]
  exact hsettled.stops (h.plain_closer.spelled.not_startsLineEnd htrivia)

theorem text_eq (h : f.Encloses cs L o es c R) :
    cs = L.flatMap Token.text ++
      (f.opening ++ (rowText es ++ (f.closing ++ R.flatMap Token.text))) := by
  have htext := h.inner.text_eq
  rw [← h.opening_eq, ← h.closing_eq]
  simpa using htext

theorem innerStart_eq (h : f.Encloses cs L o es c R) :
    f.innerStart = ((L ++ [o]).flatMap Token.text).length := by
  rw [innerStart, h.start, ← h.opening_eq]
  simp

theorem stop_eq (h : f.Encloses cs L o es c R) :
    f.stop = f.innerStart + rowWidth es + f.closing.length := by
  have hstop : f.stop = f.start + rowWidth f.children := f.stop_eq
  rw [hstop, h.children, innerStart, ← h.opening_eq, ← h.closing_eq]
  simp only [rowWidth, rowWidth_append, width]
  omega

theorem innerStop_eq (h : f.Encloses cs L o es c R) : f.innerStop = f.innerStart + rowWidth es := by
  rw [innerStop, if_pos h.isClosed, h.stop_eq, Nat.add_sub_cancel]

/-- The inside that a collection `Contains` is the row between its delimiters. -/
theorem contains (h : f.Encloses cs L o es c R) : f.Contains cs (L ++ [o]) es (c :: R) := by
  refine ⟨h.inner, h.stops_start, ?_⟩
  have hnodes : f.nodes =
      inRow (f.toSite :: f.around) ((L ++ [o]).flatMap Token.text).length es := by
    rw [nodes, h.children, inRow, inRow_append, h.start]
    simp [inRow]
  rw [Form.forms, hnodes]
  exact filter_inRow_isForm h.tidy

end Encloses

end Form

end SexpEdit
