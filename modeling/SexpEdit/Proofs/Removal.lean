/-
Taking text away keeps a text balanced.

The edits that take text away look at forms and at single characters, and not at what the rest of
the text is read in once a part is gone: a comment loses its line end, a quote is left behind a
backslash, a symbol takes in the backslash of a character literal.  Where none of that happens,
which is what `Change.SteadyAll` says of the changes, the delimiters that go are paired among
themselves.

* `Document.delete_keeps_balance` — deleting a character or an empty pair;
* `Document.kill_keeps_balance` — killing forms, regions and one side of a collection;
* `Document.delete_breaks_escape`, `Document.kill_breaks_comment` — without steady changes a string
  or a collection may lose its end.
-/
import SexpEdit.Edit.Kill
import SexpEdit.Proofs.Cutting

namespace SexpEdit

open SexpEdit.Tree Kind Text
open Token (scan widthOf)

namespace Tree.Tidy

theorem not_delimiter {t : Token} (h : Tidy (.leaf t)) :
    ¬(t.kind.isOpener || t.kind.isCloser) := by
  obtain ⟨ht⟩ := h
  cases hk : t.kind <;> rw [hk] at ht <;> cases ht <;> exact Bool.false_ne_true

/-- A delimiter in a `Tidy` node stands in a collection. -/
theorem isCollection_of_delimiter {k : Kind} {ts : List Tree} {t : Token} (h : Tidy (.node k ts))
    (hmem : .leaf t ∈ ts) (ht : t.kind.isOpener || t.kind.isCloser) : k.isCollection := by
  have hblank : ∀ {p : Token} {bs : List Token}, p.kind = .readerPrefix →
      (∀ b ∈ bs, b.kind = .whitespace ∨ b.kind = .newline) → t ∉ p :: bs := by
    intro p bs hp hbs hmem
    rcases List.mem_cons.mp hmem with rfl | hmem
    · rw [hp] at ht
      cases ht
    · rcases hbs t hmem with hk | hk <;> rw [hk] at ht <;> cases ht
  cases h with
  | atom ha =>
    obtain rfl := Tree.leaf.inj (List.mem_singleton.mp hmem)
    cases hk : t.kind <;> rw [hk] at ha ht <;> cases ha <;> cases ht
  | closed ho => exact Kind.isCollection_of_collection? ho
  | prefixed hp hbs =>
    refine absurd ?_ (hblank hp hbs)
    simpa using hmem
  | dangling hp hbs =>
    refine absurd ?_ (hblank hp hbs)
    simpa using hmem

end Tree.Tidy

/-- An edit with one deletion leaves the caret where it was made, and one with no changes moves it
to an offset up to `limit`. -/
def Edit.CaretUpto (limit : Nat) (r : Edit) : Prop :=
  (r.changes = [] ∧ r.caret ≤ limit) ∨ ∃ k, r.changes = [.deletion r.caret k]

namespace Edit.Options

/-- A `region?` has its ends in order. -/
theorem region?_eq_some {o : Edit.Options} {offset start stop : Nat}
    (h : o.region? offset = some (start, stop)) :
    ∃ other, o.otherEnd = some other ∧ start = min offset other ∧ stop = max offset other ∧
      start < stop := by
  rw [region?] at h
  split at h
  · cases h
  · rename_i other hother
    split at h
    · cases h
    · obtain ⟨rfl, rfl⟩ := Prod.mk.inj (Option.some.inj h)
      exact ⟨other, hother, rfl, rfl, by omega⟩

theorem region?_of_none {o : Edit.Options} (h : o.otherEnd = none) (offset : Nat) :
    o.region? offset = none := by
  rw [region?, h]

end Edit.Options

namespace Document

/-! ### What the edits take away -/

section Cases

variable {d : Document} {offset : Nat} {o : Edit.Options} {r : Edit}

theorem killRegion?_eq_some {start stop : Nat} (h : d.killRegion? start stop = some r) :
    d.isBalanced start stop ∧ r = ⟨[.deletion start (stop - start)], start⟩ := by
  rw [killRegion?] at h
  split at h
  · rename_i hb
    exact ⟨hb, (Option.some.inj h).symm⟩
  · cases h

/-- What a `kill?` takes away: a region goes, or what is between the offset and a form, or a part of
a string. -/
theorem kill?_eq_some (h : d.kill? offset o = some r) :
    (∃ start stop, o.region? offset = some (start, stop) ∧ d.killRegion? start stop = some r) ∨
      (o.backward ∧ ∃ f ∈ (d.container offset).forms, ∃ start, start < offset ∧
        r = ⟨[.deletion start (offset - start)], start⟩ ∧
        (start = f.start ∨ f.isString ∧ start = f.start + 1 ∧ offset < f.stop)) ∨
      ∃ f ∈ (d.container offset).forms, ∃ stop, offset < stop ∧
        r = ⟨[.deletion offset (stop - offset)], offset⟩ ∧
        (stop = f.stop ∨ f.isTerminatedString ∧ stop = f.stop - 1 ∧ f.start < offset) := by
  rw [kill?] at h
  split at h
  · rename_i start stop hregion
    exact .inl ⟨start, stop, hregion, h⟩
  · refine .inr ?_
    dsimp only at h
    by_cases hback : o.backward
    · rw [if_pos hback] at h
      refine .inl ⟨hback, ?_⟩
      split at h
      · cases h
      · rename_i f hlast
        have hf := (List.mem_filter.mp (List.mem_of_getLast? hlast)).1
        refine ⟨f, hf, if f.isString && offset < f.stop then f.start + 1 else f.start, ?_⟩
        by_cases hlt : (if f.isString && offset < f.stop then f.start + 1 else f.start) < offset
        · rw [if_pos hlt] at h
          refine ⟨hlt, (Option.some.inj h).symm, ?_⟩
          by_cases hin : f.isString && offset < f.stop
          · rw [if_pos hin]
            rw [Bool.and_eq_true, decide_eq_true_eq] at hin
            exact .inr ⟨hin.1, rfl, hin.2⟩
          · rw [if_neg hin]
            exact .inl rfl
        · rw [if_neg hlt] at h
          cases h
    · rw [if_neg hback] at h
      refine .inr ?_
      split at h
      · cases h
      · rename_i f hfirst
        have hf := List.mem_of_find?_eq_some hfirst
        refine ⟨f, hf, if f.isTerminatedString && f.start < offset then f.stop - 1 else f.stop, ?_⟩
        by_cases hlt : offset < if f.isTerminatedString && f.start < offset then f.stop - 1
            else f.stop
        · rw [if_pos hlt] at h
          refine ⟨hlt, (Option.some.inj h).symm, ?_⟩
          by_cases hin : f.isTerminatedString && f.start < offset
          · rw [if_pos hin]
            rw [Bool.and_eq_true, decide_eq_true_eq] at hin
            exact .inr ⟨hin.1, rfl, hin.2⟩
          · rw [if_neg hin]
            exact .inl rfl
        · rw [if_neg hlt] at h
          cases h

/-- What a `spliceKill?` takes away: what is on one side of the offset, or of the next form, goes
with the delimiters. -/
theorem spliceKill?_eq_some {backward : Bool} (h : d.spliceKill? offset backward = some r) :
    ∃ list, d.innermost? offset = some list ∧
      ((∃ right, (right = offset ∨ right = list.innerStop ∨ ∃ f ∈ list.forms, right = f.start) ∧
          r = ⟨(if list.isClosed then [.deletion list.innerStop list.closing.length] else []) ++
            [.deletion list.start (right - list.start)], list.start⟩) ∨
        ∃ left, (left = offset ∨ left = list.innerStart ∨ ∃ f ∈ list.forms, left = f.stop) ∧
          r = ⟨[.deletion left (list.stop - left), .deletion list.start list.opening.length],
            left - list.opening.length⟩) := by
  obtain ⟨list, hlist, rfl⟩ := Option.map_eq_some_iff.mp h
  refine ⟨list, hlist, ?_⟩
  by_cases hback : backward
  · rw [if_pos hback]
    refine .inl ⟨_, ?_, rfl⟩
    split
    · exact .inl rfl
    · split
      · rename_i f hf
        exact .inr (.inr ⟨f, List.mem_of_find?_eq_some hf, rfl⟩)
      · exact .inr (.inl rfl)
  · rw [if_neg hback]
    refine .inr ⟨_, ?_, rfl⟩
    split
    · exact .inl rfl
    · split
      · rename_i f hf
        exact .inr (.inr ⟨f, (List.mem_filter.mp (List.mem_of_getLast? hf)).1, rfl⟩)
      · exact .inr (.inl rfl)

/-- What the deletion of the character at `pos` takes away. -/
inductive Deletes (d : Document) (pos : Nat) : List Change → Prop
  | nothing : Deletes d pos []
  | pair {k : Kind} {start n : Nat} : d.delimiterFate? pos = some (k, .withPartner start n) →
      Deletes d pos [.deletion start n]
  | stray {k : Kind} : d.delimiterFate? pos = some (k, .alone) → Deletes d pos [.deletion pos 1]
  | char : d.delimiterFate? pos = none → d.stringAt? pos = none → Deletes d pos [.deletion pos 1]
  | inString {s : Leaf} {start n : Nat} : d.delimiterFate? pos = none → d.stringAt? pos = some s →
      s.start ≤ start → start + n ≤ s.stop → Deletes d pos [.deletion start n]

theorem stringAt?_eq_some {pos : Nat} {s : Leaf} (h : d.stringAt? pos = some s) :
    d.leafAt? pos = some s ∧ s.kind.isString ∧ s.start ≤ pos ∧ pos < s.stop := by
  obtain ⟨hleaf, hk⟩ := Option.filter_eq_some_iff.mp h
  have hcover := List.find?_some hleaf
  rw [Bool.and_eq_true, decide_eq_true_eq, decide_eq_true_eq] at hcover
  exact ⟨hleaf, hk, hcover⟩

/-- What `removeAt` takes away, if `escape` gives the start of two characters of the string. -/
theorem removeAt_deletes {pos : Nat} {aside : Kind → Nat} {escape : Leaf → Option Nat}
    (haside : ∀ k, aside k ≤ pos + 1)
    (hescape : ∀ s start, d.stringAt? pos = some s → escape s = some start →
      s.start ≤ start ∧ start + 2 ≤ s.stop) :
    Deletes d pos (d.removeAt pos aside escape).changes ∧
      (d.removeAt pos aside escape).CaretUpto (pos + 1) := by
  unfold removeAt
  split
  · next hfate => exact ⟨.pair hfate, .inr ⟨_, rfl⟩⟩
  · next hfate => exact ⟨.stray hfate, .inr ⟨_, rfl⟩⟩
  · exact ⟨.nothing, .inl ⟨rfl, haside _⟩⟩
  · next hfate =>
    split
    · next hstring => exact ⟨.char hfate hstring, .inr ⟨_, rfl⟩⟩
    · next s hstring =>
      obtain ⟨-, -, hge, hlt⟩ := stringAt?_eq_some hstring
      split
      · next hempty =>
        rw [Bool.and_eq_true, decide_eq_true_eq, decide_eq_true_eq] at hempty
        exact ⟨.inString hfate hstring (Nat.le_refl _) (by omega), .inr ⟨_, rfl⟩⟩
      · split
        · exact ⟨.nothing, .inl ⟨rfl, Nat.le_refl _⟩⟩
        · split
          · exact ⟨.nothing, .inl ⟨rfl, Nat.le_succ _⟩⟩
          · split
            · next start hstart =>
              obtain ⟨hlow, hhigh⟩ := hescape s start hstring hstart
              exact ⟨.inString hfate hstring hlow hhigh, .inr ⟨_, rfl⟩⟩
            · exact ⟨.inString hfate hstring hge (by omega), .inr ⟨_, rfl⟩⟩

theorem deleteForward?_deletes (h : d.deleteForward? offset = some r) :
    offset < d.length ∧ Deletes d offset r.changes ∧ r.CaretUpto (offset + 1) := by
  rw [deleteForward?] at h
  split at h
  · cases h
  · obtain rfl := Option.some.inj h
    refine ⟨by omega, removeAt_deletes (fun k => ?_) fun s start hstring hstart => ?_⟩
    · split <;> omega
    · obtain ⟨-, -, hge, -⟩ := stringAt?_eq_some hstring
      split at hstart
      · next hescape =>
        rw [Bool.and_eq_true, decide_eq_true_eq, decide_eq_true_eq] at hescape
        cases hstart
        omega
      · cases hstart

theorem deleteBackward?_deletes (h : d.deleteBackward? offset = some r) :
    offset - 1 < d.length ∧ Deletes d (offset - 1) r.changes ∧ r.CaretUpto offset := by
  rw [deleteBackward?] at h
  split at h
  · cases h
  · next hin =>
    rw [Bool.or_eq_true, decide_eq_true_eq, decide_eq_true_eq, not_or] at hin
    obtain rfl := Option.some.inj h
    have hnext : offset - 1 + 1 = offset := by omega
    refine ⟨by omega, hnext ▸ removeAt_deletes (fun k => ?_) fun s start hstring hstart => ?_⟩
    · split <;> omega
    · obtain ⟨-, -, hge, hlt⟩ := stringAt?_eq_some hstring
      split at hstart
      · next hescape =>
        rw [Bool.and_eq_true, decide_eq_true_eq, decide_eq_true_eq] at hescape
        cases hstart
        omega
      · cases hstart

theorem delete?_eq_some (h : d.delete? offset o = some r) :
    (∃ start stop, o.region? offset = some (start, stop) ∧ d.killRegion? start stop = some r) ∨
      ∃ pos < d.length, Deletes d pos r.changes := by
  rw [delete?] at h
  split at h
  · rename_i start stop hregion
    exact .inl ⟨start, stop, hregion, h⟩
  · refine .inr ?_
    split at h
    · obtain ⟨hpos, hdeletes, -⟩ := deleteBackward?_deletes h
      exact ⟨offset - 1, hpos, hdeletes⟩
    · obtain ⟨hpos, hdeletes, -⟩ := deleteForward?_deletes h
      exact ⟨offset, hpos, hdeletes⟩

end Cases

open Form

variable {cs : List Char} {offset : Nat} {o : Edit.Options} {r : Edit}

/-! ### Killing -/

/-- At an offset of a `Balanced` text the closers of the collections that hold it are awaited. -/
theorem awaitedUpto_eq_awaitedAt (h : Balanced cs) {n : Nat} (hn : n ≤ cs.length) :
    awaitedUpto cs n = some (awaitedAt (ofText cs).nodes n) := by
  obtain ⟨ts, hparse, -, htallies⟩ := h.tallies
  have hleaves := rowLeaves_of_parse_eq hparse
  have hwidth : rowWidth ts = cs.length := by
    rw [rowWidth_eq, hleaves, Token.scan_text]
  obtain ⟨us, vs, hsplit, hupto, hpairs⟩ :=
    htallies.awaits [Site.ofNode .root 0 ts] 0 n (by omega)
  have hnodes : (ofText cs).nodes =
      ofNode .root 0 ts [] :: rowWithin [Site.ofNode .root 0 ts] 0 ts := by
    show within [] 0 (Tree.parse cs) = _
    rw [hparse, within]
  have hroot : ¬(ofNode .root 0 ts []).isCollection := Bool.false_ne_true
  rw [hnodes, awaitedAt_cons_of_not_isCollection hroot,
    awaitedUpto_eq (hleaves.symm.trans hsplit) hupto, hpairs, List.append_nil, Nat.zero_add]

/-- A range that `isBalanced` has both its ends in the same collections. -/
theorem holds_iff_of_isBalanced (h : Balanced cs) {start stop : Nat} (hlt : start < stop)
    (hb : (ofText cs).isBalanced start stop) {f : Form} (hf : f ∈ (ofText cs).nodes)
    (hk : f.isCollection) : f.holds start = f.holds stop := by
  obtain ⟨L, o, es, c, R, hf'⟩ := h.exists_bracketed (placed_of_mem_within hf) hk
  have hstart := hf'.brackets.innerStart_eq
  have hstop := hf'.brackets.innerStop_eq
  have hend := hf'.brackets.stop_eq
  have hform : f.kind.isForm := by
    rw [Form.isCollection] at hk
    cases hkind : f.kind <;> rw [hkind] at hk <;> cases hk <;> rfl
  have hcut := List.all_eq_true.mp hb f (List.mem_filter.mpr ⟨hf, hform⟩)
  rw [Bool.eq_iff_iff, hf'.brackets.holds_iff, hf'.brackets.holds_iff]
  by_cases hover : f.start < stop ∧ start < f.stop
  · rw [if_pos (by simp [hover]), hk] at hcut
    simp only [if_true, Bool.or_eq_true, Bool.and_eq_true, decide_eq_true_eq] at hcut
    omega
  · omega

theorem killRegion?_staysBalanced (h : Balanced cs) {start stop : Nat} (hlt : start < stop)
    (hstop : stop ≤ cs.length) (hr : (ofText cs).killRegion? start stop = some r)
    (hsteady : Change.SteadyAll cs r.changes) : StaysBalanced cs r.changes := by
  obtain ⟨hb, rfl⟩ := killRegion?_eq_some hr
  have hsum : start + (stop - start) = stop := by omega
  have hsame : awaitedAt (ofText cs).nodes start = awaitedAt (ofText cs).nodes stop := by
    rw [awaitedAt, awaitedAt]
    congr 2
    refine List.filter_congr fun f hf => ?_
    by_cases hk : f.isCollection
    · rw [holds_iff_of_isBalanced h hlt hb hf hk]
    · rw [Bool.not_eq_true] at hk
      rw [hk, Bool.false_and, Bool.false_and]
  refine h.staysBalanced_cut (by omega) hsteady (awaitedUpto_eq_awaitedAt h (by omega)) ?_
  rw [hsum, hsame]
  exact awaitedUpto_eq_awaitedAt h hstop

theorem kill?_staysBalanced (h : Balanced cs) (hoffset : offset ≤ cs.length)
    (ho : ∀ other, o.otherEnd = some other → other ≤ cs.length)
    (hr : (ofText cs).kill? offset o = some r) (hsteady : Change.SteadyAll cs r.changes) :
    StaysBalanced cs r.changes := by
  obtain ⟨L, es, R, hinterior, hlevel⟩ := exists_interior_container h hoffset
  rcases kill?_eq_some hr with ⟨start, stop, hregion, hkill⟩ |
    ⟨-, f, hf, start, hlt, rfl, hstart⟩ | ⟨f, hf, stop, hlt, rfl, hstop⟩
  · obtain ⟨other, hother, rfl, rfl, hlt⟩ := Edit.Options.region?_eq_some hregion
    have hle := ho other hother
    exact killRegion?_staysBalanced h hlt (by omega) hkill hsteady
  · have hfrom : ((ofText cs).container offset).Level es start := by
      rcases hstart with rfl | ⟨hstring, rfl, hin⟩
      · exact hinterior.level_start hf
      · exact hinterior.level_atom hf (kind_of_isAtomOf hstring) (by omega) (by omega)
    refine hinterior.cut h hfrom ?_ hsteady
    rw [Nat.add_sub_cancel' (Nat.le_of_lt hlt)]
    exact hlevel
  · have hto : ((ofText cs).container offset).Level es stop := by
      rcases hstop with rfl | ⟨hstring, rfl, hin⟩
      · exact hinterior.level_stop hf
      · exact hinterior.level_atom hf (kind_of_isAtomOf hstring) (by omega) (by omega)
    refine hinterior.cut h hlevel ?_ hsteady
    rw [Nat.add_sub_cancel' (Nat.le_of_lt hlt)]
    exact hto

end Document

namespace Form.Bracketed

variable {cs : List Char} {f : Form} {L R : List Token} {o c : Token} {es : List Tree}

/-! ### Killing one side of a collection -/

theorem widthOf_open (h : f.Bracketed cs L o es c R) : widthOf (L ++ [o]) = f.start + 1 := by
  have hstart := h.start
  have ho := h.brackets.opener_length
  simp only [Token.widthOf_append, Token.widthOf_cons, Token.widthOf_nil]
  omega

theorem widthOf_whole (h : f.Bracketed cs L o es c R) :
    widthOf (L ++ o :: (rowLeaves es ++ [c])) = f.stop := by
  have hrow := rowWidth_eq_widthOf es
  have hstart := h.start
  have hstop := h.brackets.stop_eq
  have ho := h.brackets.opener_length
  have hc := h.brackets.closer_length
  simp only [Token.widthOf_append, Token.widthOf_cons, Token.widthOf_nil]
  omega

theorem tokens_whole (h : f.Bracketed cs L o es c R) :
    scan cs = (L ++ o :: (rowLeaves es ++ [c])) ++ R := by
  rw [h.tokens]
  simp

theorem stop_le (h : f.Bracketed cs L o es c R) : f.stop ≤ cs.length := by
  have hwidth : widthOf (scan cs) = cs.length := by rw [widthOf, Token.scan_text]
  rw [h.tokens_whole, Token.widthOf_append, h.widthOf_whole] at hwidth
  omega

/-- The delimiters up to the end of the opener `o`. -/
theorem delimiters_open (h : f.Bracketed cs L o es c R) :
    Mode.code.delimiters (cs.take (f.start + 1)) = (L ++ [o]).flatMap (·.kind.delimiters) := by
  have hscan : scan cs = (L ++ [o]) ++ (rowLeaves es ++ c :: R) := by
    rw [h.tokens]
    simp
  have hupto := upto_widthOf hscan
  rw [h.widthOf_open] at hupto
  exact delimiters_take hscan hupto.1 hupto.2

/-- The delimiters up to the closer, at `innerStop`. -/
theorem delimiters_inner (h : f.Bracketed cs L o es c R) :
    Mode.code.delimiters (cs.take f.innerStop) =
      (L ++ [o]).flatMap (·.kind.delimiters) ++ (rowLeaves es).flatMap (·.kind.delimiters) := by
  have hscan : scan cs = ((L ++ [o]) ++ rowLeaves es) ++ c :: R := by
    rw [h.tokens]
    simp
  have hwidth : widthOf ((L ++ [o]) ++ rowLeaves es) = f.innerStop := by
    rw [Token.widthOf_append, h.widthOf_open, h.brackets.innerStop_eq, rowWidth_eq_widthOf]
  have hupto := upto_widthOf hscan
  rw [hwidth] at hupto
  rw [delimiters_take hscan hupto.1 hupto.2, List.flatMap_append]

theorem pairs_whole (h : f.Bracketed cs L o es c R) (awaited : List Kind) :
    pairAll awaited ((o :: (rowLeaves es ++ [c])).map Token.kind) = some awaited := by
  have hopen : o.kind.closer? = some c.kind := by
    rw [closer?_eq_ending? h.brackets.opener, h.brackets.closer]
  rw [List.map_cons, pairAll_cons, pair_opener hopen, Option.bind_some, List.map_append,
    pairAll_append, (Tallies.of_forall h.each).pairs, Option.bind_some, List.map_singleton,
    pairAll_cons, pair_closer (isCloser_of_ending? h.brackets.closer)]
  rfl

/-- The same closers, by `awaitedUpto`, are awaited before a collection and after it. -/
theorem exists_awaited (h : f.Bracketed cs L o es c R) (hcs : Balanced cs) :
    ∃ awaited, pairAll [] (L.map Token.kind) = some awaited ∧
      awaitedUpto cs f.start = some awaited ∧ awaitedUpto cs f.stop = some awaited := by
  have hpairs := hcs.pairAll_scan
  rw [h.tokens, List.map_append, pairAll_append] at hpairs
  obtain ⟨awaited, hawaited, -⟩ := Option.bind_eq_some_iff.mp hpairs
  refine ⟨awaited, hawaited, ?_, ?_⟩
  · rw [h.start, awaitedUpto_eq h.tokens (upto_widthOf h.tokens)]
    exact hawaited
  · rw [← h.widthOf_whole, awaitedUpto_eq h.tokens_whole (upto_widthOf h.tokens_whole),
      List.map_append, pairAll_append, hawaited, Option.bind_some, h.pairs_whole]

/-- A `Level` offset has the delimiters of a part of the row before it that pairs, and so does the
rest of the row. -/
theorem exists_delimiters (h : f.Bracketed cs L o es c R) {n : Nat} (hn : f.Level es n) :
    ∃ us vs, rowLeaves es = us ++ vs ∧
      Mode.code.delimiters (cs.take n) =
        (L ++ [o]).flatMap (·.kind.delimiters) ++ us.flatMap (·.kind.delimiters) ∧
      ∀ awaited, pairAll awaited (us.flatMap (·.kind.delimiters)) = some awaited ∧
        pairAll awaited (vs.flatMap (·.kind.delimiters)) = some awaited := by
  obtain ⟨us, vs, hsplit, hupto, hpairs⟩ := h.interior.exists_upto hn
  have hscan : scan cs = ((L ++ [o]) ++ us) ++ (vs ++ c :: R) := by
    rw [h.interior.tokens, hsplit]
    simp only [List.append_assoc]
  refine ⟨us, vs, hsplit, ?_, fun awaited => ⟨?_, ?_⟩⟩
  · rw [delimiters_take hscan hupto.1 hupto.2, List.flatMap_append]
  · rw [pairAll_delimiters]
    exact hpairs awaited
  · have hall := (Tallies.of_forall h.each).pairs awaited
    rw [hsplit, List.map_append, pairAll_append, hpairs, Option.bind_some] at hall
    rw [pairAll_delimiters]
    exact hall

/-- Two `Steady` cuts leave a `Balanced` text when the delimiters that stay pair. -/
theorem balanced_of_cuts {cs : List Char} (hcs : Balanced cs) {a b s e : Nat} {rest : List Kind}
    (hab : Steady cs a b) (hse : Steady (cs.take a ++ cs.drop b) s e) (hea : e ≤ a)
    (ha : a ≤ cs.length)
    (hrest : Mode.code.delimiters (cs.take a) = Mode.code.delimiters (cs.take e) ++ rest)
    {awaited : List Kind} (hs : awaitedUpto cs s = some awaited) (hsle : s ≤ a)
    (hb : awaitedUpto cs b = some awaited) (hpairs : pairAll awaited rest = some awaited) :
    Balanced ((cs.take a ++ cs.drop b).take s ++ (cs.take a ++ cs.drop b).drop e) := by
  have hlen : (cs.take a).length = a := by
    rw [List.length_take]
    omega
  have htake : ∀ n ≤ a, (cs.take a ++ cs.drop b).take n = cs.take n := by
    intro n hn
    rw [List.take_append_of_le_length (by omega), List.take_take]
    congr 1
    omega
  obtain ⟨hdelims, hstring⟩ := hab.cut
  obtain ⟨hdelims', hstring'⟩ := hse.cut
  -- what the second cut leaves after it is the rest of the first part and all of the second
  have hafter : (Mode.code.after (cs.take e)).delimiters ((cs.take a ++ cs.drop b).drop e) =
      rest ++ (Mode.code.after (cs.take b)).delimiters (cs.drop b) := by
    have hsplit : Mode.code.delimiters (cs.take a ++ cs.drop b) =
        Mode.code.delimiters (cs.take e) ++
          (Mode.code.after (cs.take e)).delimiters ((cs.take a ++ cs.drop b).drop e) := by
      rw [← htake e hea, ← Mode.delimiters_append, List.take_append_drop]
    rw [hdelims, hrest, List.append_assoc] at hsplit
    exact (List.append_cancel_left hsplit).symm
  refine (balanced_iff_delimiters _).mpr ⟨?_, ?_⟩
  · rw [hstring', hstring]
    exact ((balanced_iff_delimiters cs).mp hcs).1
  · rw [awaitedUpto] at hs
    rw [hdelims', htake s hsle, htake e hea, hafter, pairAll_append, hs, Option.bind_some,
      pairAll_append, hpairs, Option.bind_some]
    exact hcs.pairAll_drop hb

/-- Killing what is after a `Level` offset, and the delimiters, leaves a balanced text. -/
theorem spliceKill_forward (h : f.Bracketed cs L o es c R) (hcs : Balanced cs) {left : Nat}
    (hleft : f.Level es left)
    (hsteady : Change.SteadyAll cs
      [.deletion left (f.stop - left), .deletion f.start f.opening.length]) :
    StaysBalanced cs [.deletion left (f.stop - left), .deletion f.start f.opening.length] := by
  obtain ⟨hfirst, hsecond, -⟩ := hsteady
  have hge := hleft.ge
  have hle := hleft.le
  have hinner := h.brackets.innerStart_eq
  have hinner' := h.brackets.innerStop_eq
  have hstop := h.brackets.stop_eq
  have hlength := h.stop_le
  rw [h.brackets.opening_length] at hsecond ⊢
  have hsum : left + (f.stop - left) = f.stop := by omega
  refine ⟨_, .cut (by omega) (.cut ?_ (.nil _)), ?_⟩
  · rw [List.length_append, List.length_take]
    omega
  · have hfirst : Steady cs left (left + (f.stop - left)) := hfirst
    have hsecond : Steady (cs.take left ++ cs.drop (left + (f.stop - left))) f.start
      (f.start + 1) := hsecond
    obtain ⟨awaited, -, hstart, hend⟩ := h.exists_awaited hcs
    obtain ⟨us, vs, -, hdelims, hpairs⟩ := h.exists_delimiters hleft
    rw [← h.delimiters_open] at hdelims
    refine balanced_of_cuts hcs hfirst hsecond (by omega) (by omega) hdelims hstart (by omega) ?_
      (hpairs awaited).1
    rw [hsum]
    exact hend

/-- Killing what is before a `Level` offset, and the delimiters, leaves a balanced text. -/
theorem spliceKill_backward (h : f.Bracketed cs L o es c R) (hcs : Balanced cs) {right : Nat}
    (hright : f.Level es right)
    (hsteady : Change.SteadyAll cs
      [.deletion f.innerStop f.closing.length, .deletion f.start (right - f.start)]) :
    StaysBalanced cs
      [.deletion f.innerStop f.closing.length, .deletion f.start (right - f.start)] := by
  obtain ⟨hfirst, hsecond, -⟩ := hsteady
  have hge := hright.ge
  have hle := hright.le
  have hinner := h.brackets.innerStart_eq
  have hinner' := h.brackets.innerStop_eq
  have hstop := h.brackets.stop_eq
  have hlength := h.stop_le
  rw [h.brackets.closing_length] at hfirst hsecond ⊢
  have hsum : f.start + (right - f.start) = right := by omega
  refine ⟨_, .cut (by omega) (.cut ?_ (.nil _)), ?_⟩
  · rw [List.length_append, List.length_take]
    omega
  · have hfirst : Steady cs f.innerStop (f.innerStop + 1) := hfirst
    have hsecond : Steady (cs.take f.innerStop ++ cs.drop (f.innerStop + 1)) f.start
      (f.start + (right - f.start)) := hsecond
    obtain ⟨awaited, -, hstart, hend⟩ := h.exists_awaited hcs
    obtain ⟨us, vs, hsplit, hdelims, hpairs⟩ := h.exists_delimiters hright
    have hrow : (rowLeaves es).flatMap (·.kind.delimiters) =
        us.flatMap (·.kind.delimiters) ++ vs.flatMap (·.kind.delimiters) := by
      rw [hsplit, List.flatMap_append]
    have hinside := h.delimiters_inner
    rw [hrow, ← List.append_assoc, ← hdelims] at hinside
    rw [hsum] at hsecond ⊢
    refine balanced_of_cuts hcs hfirst hsecond hle (by omega) hinside hstart (by omega) ?_
      (hpairs awaited).2
    have hend' : f.innerStop + 1 = f.stop := by omega
    rw [hend']
    exact hend

end Form.Bracketed

namespace Document

open Form

variable {cs : List Char} {offset : Nat} {o : Edit.Options} {r : Edit}

theorem spliceKill?_staysBalanced (h : Balanced cs) {backward : Bool}
    (hr : (ofText cs).spliceKill? offset backward = some r)
    (hsteady : Change.SteadyAll cs r.changes) : StaysBalanced cs r.changes := by
  obtain ⟨list, hlist, hcases⟩ := spliceKill?_eq_some hr
  obtain ⟨L, o, es, c, R, hlist, hlevel⟩ := exists_bracketed_of_innermost? h hlist
  rcases hcases with ⟨right, hright, rfl⟩ | ⟨left, hleft, rfl⟩
  · have hright : list.Level es right := by
      rcases hright with rfl | rfl | ⟨f, hf, rfl⟩
      · exact hlevel
      · exact hlist.interior.level_innerStop
      · exact hlist.interior.level_start hf
    rw [if_pos hlist.brackets.isClosed] at hsteady ⊢
    exact hlist.spliceKill_backward h hright hsteady
  · have hleft : list.Level es left := by
      rcases hleft with rfl | rfl | ⟨f, hf, rfl⟩
      · exact hlevel
      · exact hlist.interior.level_innerStart
      · exact hlist.interior.level_stop hf
    exact hlist.spliceKill_forward h hleft hsteady

/-- **Killing keeps a text balanced where the rest is read as before.**  In a balanced text a region
is killed, or the forms next to an offset, or one side of a collection with its delimiters.  When
what comes after each change is read as before, the changes can all be made and leave a balanced
text. -/
theorem kill_keeps_balance (hbalanced : Balanced cs) (hoffset : offset ≤ cs.length)
    (ho : ∀ other, o.otherEnd = some other → other ≤ cs.length)
    (hr : (ofText cs).kill? offset o = some r ∨
      (ofText cs).spliceKill? offset o.backward = some r)
    (hsteady : Change.SteadyAll cs r.changes) (language : String) :
    ∃ commands host, Change.commands r.changes = .ok commands ∧
      (Host.ofBuffer (.ofText language cs)).applyAll commands = (.ok true, host) ∧
      Balanced host.text := by
  obtain ⟨out, ⟨commands, hcommands, hsplice⟩, hout⟩ : StaysBalanced cs r.changes := by
    rcases hr with hr | hr
    · exact kill?_staysBalanced hbalanced hoffset ho hr hsteady
    · exact spliceKill?_staysBalanced hbalanced hr hsteady
  obtain ⟨host, hrun, rfl⟩ :=
    Host.applyAll_of_spliceAll? (h := Host.ofBuffer (.ofText language cs)) ⟨rfl, rfl⟩ hsplice
  exact ⟨commands, host, hcommands, hrun, hout⟩

/-- The start of a collection goes with a whole comment in it. -/
theorem kill_keeps_balance_commented :
    let cs := ['(', '"', '(', '"', ' ', '(', 'a', ' ', ';', '[', '\n', 'b', ')', ')']
    let o : Edit.Options := { backward := true }
    let r : Edit := ⟨[.deletion 12 1, .deletion 5 6], 5⟩
    Balanced cs ∧ 11 ≤ cs.length ∧ o.otherEnd = none ∧
      (ofText cs).spliceKill? 11 o.backward = some r ∧ Change.SteadyAll cs r.changes ∧
      ∃ commands host, Change.commands r.changes = .ok commands ∧
        (Host.ofBuffer (.ofText "clojure" cs)).applyAll commands = (.ok true, host) ∧
        Balanced host.text := by
  intro cs o r
  have hbalanced : Balanced cs := by decide +kernel
  have hr : (ofText cs).spliceKill? 11 o.backward = some r := by decide +kernel
  have hsteady : Change.SteadyAll cs r.changes := ⟨by decide +kernel, by decide +kernel, trivial⟩
  have ho : ∀ other, o.otherEnd = some other → other ≤ cs.length := by
    intro other hother
    cases hother
  exact ⟨hbalanced, by decide, rfl, hr, hsteady,
    kill_keeps_balance hbalanced (by decide) ho (.inr hr) hsteady "clojure"⟩

/-- The end of a comment's line cuts no form apart, and without it the comment takes in the closing
parenthesis. -/
theorem kill_breaks_comment :
    let cs := ['(', 'a', ' ', ';', 'b', '\n', ')']
    let o : Edit.Options := { otherEnd := some 6 }
    let r : Edit := ⟨[.deletion 5 1], 5⟩
    Balanced cs ∧ 6 ≤ cs.length ∧ (ofText cs).kill? 5 o = some r ∧
      ∃ commands host, Change.commands r.changes = .ok commands ∧
        (Host.ofBuffer (.ofText "clojure" cs)).applyAll commands = (.ok true, host) ∧
        ¬Balanced host.text := by
  intro cs o r
  have hbalanced : Balanced cs := by decide +kernel
  have hr : (ofText cs).kill? 5 o = some r := by decide +kernel
  have hbroken : ¬Balanced ['(', 'a', ' ', ';', 'b', ')'] := by decide +kernel
  exact ⟨hbalanced, by decide, hr, _, _, rfl, rfl, hbroken⟩

/-! ### Deleting -/

/-- From one end to the other of a token that is no delimiter `awaitedUpto` stays the same. -/
theorem awaitedUpto_within {ts us : List Token} {t : Token} {n : Nat}
    (hscan : scan cs = ts ++ t :: us) (ht : t.kind.closer? = none ∧ t.kind.isCloser = false)
    (hge : widthOf ts ≤ n) (hle : n ≤ widthOf ts + t.text.length) :
    awaitedUpto cs n = pairAll [] (ts.map Token.kind) := by
  by_cases hlt : n < widthOf ts + t.text.length
  · refine awaitedUpto_eq hscan ⟨hge, ?_⟩
    rintro v ⟨⟩
    exact hlt
  · have hscan' : scan cs = (ts ++ [t]) ++ us := by
      rw [hscan]
      simp
    have hn : n = widthOf (ts ++ [t]) := by
      rw [Token.widthOf_append, Token.widthOf_cons, Token.widthOf_nil]
      omega
    rw [hn, awaitedUpto_eq hscan' (upto_widthOf hscan'), List.map_append, pairAll_append]
    cases pairAll [] (ts.map Token.kind) with
    | none => rfl
    | some awaited => exact pairAll_cons_of_not_delimiter ht awaited []

/-- Where every node is sound a delimiter stands in a collection. -/
theorem isCollection_of_delimiter
    (h : ∀ f ∈ (ofText cs).nodes, f.kind ≠ .error ∧ (f.isCollection → f.isClosed)) {p : Form}
    {t : Token} {x y : List Tree} (hp : Placed (Tree.parse cs) p)
    (hsplit : p.children = x ++ .leaf t :: y) (ht : t.kind.isOpener || t.kind.isCloser) :
    p.isCollection := by
  obtain ⟨ts, hparse, htidies⟩ := exists_tidy_of_sound h
  rw [hparse] at hp
  have hmem : .leaf t ∈ p.children := by simp [hsplit]
  rcases hp.tidy htidies with rfl | ⟨-, htidy⟩
  · exact absurd ht (htidies _ hmem).not_delimiter
  · exact htidy.isCollection_of_delimiter hmem ht

/-- In a `Balanced` text a delimiter goes only with its partner, and nothing is awaited between
them. -/
theorem delimiterFate?_balanced (h : Balanced cs) {pos : Nat} {k : Kind} {fate : DelimiterFate}
    (hfate : (ofText cs).delimiterFate? pos = some (k, fate)) :
    fate = .stays ∨ ∃ (list : Form) (L : List Token) (o : Token) (es : List Tree) (c : Token)
      (R : List Token), list.Bracketed cs L o es c R ∧
      fate = .withPartner list.start list.length := by
  rw [delimiterFate?] at hfate
  split at hfate
  · cases hfate
  · rename_i leaf hleaf
    split at hfate
    · rename_i hdelim
      obtain ⟨p, x, y, hp, hparent, hsplit, -⟩ :=
        exists_parent_of_mem (List.mem_of_find?_eq_some hleaf)
      have hk := isCollection_of_delimiter h.1 hp hsplit hdelim
      obtain ⟨L, o, es, c, R, hp⟩ := h.exists_bracketed hp hk
      have hfilter : leaf.parent?.filter Form.isCollection = some p := by
        rw [hparent, Option.filter_some, if_pos hk]
      rw [hfilter] at hfate
      dsimp only at hfate
      rw [hp.brackets.isClosed] at hfate
      split at hfate
      · rename_i hopen
        cases hopen
      · split at hfate
        · obtain ⟨-, rfl⟩ := Prod.mk.inj (Option.some.inj hfate)
          exact .inr ⟨p, L, o, es, c, R, hp, rfl⟩
        · obtain ⟨-, rfl⟩ := Prod.mk.inj (Option.some.inj hfate)
          exact .inl rfl
    · cases hfate

/-- Where `delimiterFate?` finds no delimiter some other token is. -/
theorem exists_token_of_fate_none {d : Document} {pos : Nat} (hpos : pos < d.length)
    (hfate : d.delimiterFate? pos = none) :
    ∃ ts t us l, scan d.text = ts ++ t :: us ∧ d.leafAt? pos = some l ∧ l.token = t ∧
      l.start = widthOf ts ∧ widthOf ts ≤ pos ∧ pos < widthOf ts + t.text.length ∧
      t.kind.closer? = none ∧ t.kind.isCloser = false := by
  have hwidth : pos < widthOf (scan d.text) := by
    rw [widthOf, Token.scan_text]
    exact hpos
  obtain ⟨ts, t, us, hscan, hle, hlt⟩ := Token.exists_token_at hwidth
  obtain ⟨l, -, hleaf, rfl, hstart⟩ := leafAt?_of_split hscan hle hlt
  refine ⟨ts, l.token, us, l, hscan, hleaf, rfl, hstart, hle, hlt, ?_⟩
  rw [delimiterFate?, hleaf] at hfate
  dsimp only at hfate
  split at hfate
  · -- a delimiter has some fate
    split at hfate
    · cases hfate
    · split at hfate
      · cases hfate
      · split at hfate <;> cases hfate
  · rename_i hdelim
    have hdelim : ¬(l.token.kind.isOpener || l.token.kind.isCloser) := hdelim
    revert hdelim
    cases l.token.kind <;> simp [isOpener, isCloser, closer?]

theorem Deletes.staysBalanced (h : Balanced cs) {pos : Nat} {changes : List Change}
    (hpos : pos < cs.length) (hd : Deletes (ofText cs) pos changes)
    (hsteady : Change.SteadyAll cs changes) : StaysBalanced cs changes := by
  have hinside : ∀ {ts us : List Token} {t : Token} {start n : Nat}, scan cs = ts ++ t :: us →
      t.kind.closer? = none ∧ t.kind.isCloser = false → widthOf ts ≤ start →
      start + n ≤ widthOf ts + t.text.length → Change.SteadyAll cs [.deletion start n] →
      StaysBalanced cs [.deletion start n] := by
    intro ts us t start n hscan ht hge hle hsteady
    have hwidth : widthOf (scan cs) = cs.length := by rw [widthOf, Token.scan_text]
    have hpairs := h.pairAll_scan
    rw [hscan] at hwidth hpairs
    rw [List.map_append, pairAll_append] at hpairs
    obtain ⟨awaited, hawaited, -⟩ := Option.bind_eq_some_iff.mp hpairs
    rw [Token.widthOf_append, Token.widthOf_cons] at hwidth
    exact h.staysBalanced_cut (by omega) hsteady
      ((awaitedUpto_within hscan ht hge (by omega)).trans hawaited)
      ((awaitedUpto_within hscan ht (by omega) hle).trans hawaited)
  cases hd with
  | nothing => exact h.staysBalanced_nil
  | pair hfate =>
    rcases delimiterFate?_balanced h hfate with hstays | ⟨list, L, o, es, c, R, hlist, heq⟩
    · cases hstays
    · cases heq
      obtain ⟨awaited, -, hstart, hstop⟩ := hlist.exists_awaited h
      have hlength : list.start + list.length = list.stop := by
        have hend := hlist.brackets.stop_eq
        rw [Form.length]
        omega
      have hle := hlist.stop_le
      refine h.staysBalanced_cut (by omega) hsteady hstart ?_
      rw [hlength]
      exact hstop
  | stray hfate =>
    rcases delimiterFate?_balanced h hfate with hstays | ⟨list, L, o, es, c, R, hlist, heq⟩
    · cases hstays
    · cases heq
  | char hfate hstring =>
    obtain ⟨ts, t, us, l, hscan, -, -, -, hge, hlt, ht⟩ := exists_token_of_fate_none hpos hfate
    exact hinside hscan ht hge (by omega) hsteady
  | inString hfate hstring hge hle =>
    obtain ⟨ts, t, us, l, hscan, hleaf, rfl, hstart, -, -, ht⟩ :=
      exists_token_of_fate_none hpos hfate
    obtain ⟨hleaf', -⟩ := stringAt?_eq_some hstring
    obtain rfl := Option.some.inj (hleaf.symm.trans hleaf')
    rw [Leaf.stop] at hle
    exact hinside hscan ht (by omega) (by omega) hsteady

/-- **Deleting keeps a text balanced where the rest is read as before.**  In a balanced text the
character before an offset or after it is deleted.  When what comes after each change is read as
before, the changes can all be made and leave a balanced text. -/
theorem delete_keeps_balance (hbalanced : Balanced cs) (ho : o.otherEnd = none)
    (hr : (ofText cs).delete? offset o = some r) (hsteady : Change.SteadyAll cs r.changes)
    (language : String) :
    ∃ commands host, Change.commands r.changes = .ok commands ∧
      (Host.ofBuffer (.ofText language cs)).applyAll commands = (.ok true, host) ∧
      Balanced host.text := by
  have hregion := Edit.Options.region?_of_none ho offset
  obtain ⟨out, ⟨commands, hcommands, hsplice⟩, hout⟩ : StaysBalanced cs r.changes := by
    rcases delete?_eq_some hr with ⟨start, stop, hsome, -⟩ | ⟨pos, hpos, hdeletes⟩
    · rw [hregion] at hsome
      cases hsome
    · exact hdeletes.staysBalanced hbalanced hpos hsteady
  obtain ⟨host, hrun, rfl⟩ :=
    Host.applyAll_of_spliceAll? (h := Host.ofBuffer (.ofText language cs)) ⟨rfl, rfl⟩ hsplice
  exact ⟨commands, host, hcommands, hrun, hout⟩

/-- An empty collection goes as a whole, next to a string and a comment that hold openers. -/
theorem delete_keeps_balance_empty_pair :
    let cs := ['(', '"', '(', '"', ' ', '(', ')', ' ', ';', '[', '\n', ')']
    let o : Edit.Options := { backward := true }
    let r : Edit := ⟨[.deletion 5 2], 5⟩
    Balanced cs ∧ o.otherEnd = none ∧ (ofText cs).delete? 6 o = some r ∧
      Change.SteadyAll cs r.changes ∧
      ∃ commands host, Change.commands r.changes = .ok commands ∧
        (Host.ofBuffer (.ofText "clojure" cs)).applyAll commands = (.ok true, host) ∧
        Balanced host.text := by
  intro cs o r
  have hbalanced : Balanced cs := by decide +kernel
  have hr : (ofText cs).delete? 6 o = some r := by decide +kernel
  have hsteady : Change.SteadyAll cs r.changes := ⟨by decide +kernel, trivial⟩
  exact ⟨hbalanced, rfl, hr, hsteady, delete_keeps_balance hbalanced rfl hr hsteady "clojure"⟩

/-- The second backslash of an escape goes with the character after it, and the first one escapes
the closing quote then. -/
theorem delete_breaks_escape :
    let cs := ['"', '\\', '\\', 'b', '"']
    let o : Edit.Options := { backward := true }
    let r : Edit := ⟨[.deletion 2 2], 2⟩
    Balanced cs ∧ o.otherEnd = none ∧ (ofText cs).delete? 4 o = some r ∧
      ∃ commands host, Change.commands r.changes = .ok commands ∧
        (Host.ofBuffer (.ofText "clojure" cs)).applyAll commands = (.ok true, host) ∧
        ¬Balanced host.text := by
  intro cs o r
  have hbalanced : Balanced cs := by decide +kernel
  have hr : (ofText cs).delete? 4 o = some r := by decide +kernel
  have hbroken : ¬Balanced ['"', '\\', '"'] := by decide +kernel
  exact ⟨hbalanced, rfl, hr, _, _, rfl, rfl, hbroken⟩

end Document

end SexpEdit
