/-
Edits that lose no text.

Slurping and barfing take one delimiter of a closed collection out of the text and put it back at
another place.  Splicing takes out the delimiters that the innermost collection has.  Wrapping puts
a pair of delimiters in.  Transposing exchanges two forms of a row.  All else stays as it is and in
its order, whatever the document: the offsets of the changes are those of the delimiters, in the
text as the changes before them left it.

* `Makes.taken`, `Makes.put` — one character is taken out or put in;
* `Form.Placed.exists_opening`, `Form.Placed.exists_closing` — where the delimiters stand;
* `Document.DelimiterMoved` — one delimiter stands at another place;
* `Document.rearranging_loses_no_text` — what the five edits make of the text.
-/
import SexpEdit.Proofs.BarfSlurp
import SexpEdit.Proofs.Edges
import SexpEdit.Proofs.Regions

namespace SexpEdit

open SexpEdit.Tree
open Token (Spelled)

/-! ### Single characters -/

theorem Text.insertIdx_eq (c : Char) : ∀ {cs : List Char} {j : Nat}, j ≤ cs.length →
    cs.insertIdx j c = cs.take j ++ ([c] ++ cs.drop j)
  | _, 0, _ => rfl
  | b :: cs, j + 1, h => by
    rw [List.insertIdx_succ_cons, insertIdx_eq c (Nat.le_of_succ_le_succ h)]
    rfl

namespace Makes

variable {cs out : List Char} {c : Char} {changes : List Change} {i j : Nat}

/-- The character at `i` is taken out. -/
theorem taken (hc : cs[i]? = some c) (h : Makes (cs.eraseIdx i) changes out) :
    Makes cs (.deletion i 1 :: changes) out := by
  obtain ⟨hi, rfl⟩ := List.getElem?_eq_some_iff.mp hc
  refine .deletion (cs.take i) [cs[i]] (cs.drop (i + 1)) ?_ ?_ rfl ?_
  · rw [List.singleton_append, ← List.drop_eq_getElem_cons hi, List.take_append_drop]
  · rw [List.length_take_of_le (Nat.le_of_lt hi)]
  · rwa [← List.eraseIdx_eq_take_drop_succ]

/-- The character `c` is put in at `j`. -/
theorem put (hj : j ≤ cs.length) (h : Makes (cs.insertIdx j c) changes out) :
    Makes cs (.insertion j [c] :: changes) out := by
  refine .insertion (cs.take j) (cs.drop j) (List.take_append_drop j cs).symm ?_ ?_
  · rw [List.length_take_of_le hj]
  · rwa [← Text.insertIdx_eq c hj]

/-- The character at `i` is taken out and put in at `j`, an offset of the text without it. -/
theorem taken_put (hc : cs[i]? = some c) (hj : j < cs.length) :
    Makes cs [.deletion i 1, .insertion j [c]] ((cs.eraseIdx i).insertIdx j c) := by
  obtain ⟨hi, -⟩ := List.getElem?_eq_some_iff.mp hc
  refine .taken hc (.put ?_ (.nil _))
  rw [List.length_eraseIdx_of_lt hi]
  omega

/-- The character at `i` is put in further on, behind `j`, and then it is taken out. -/
theorem put_taken (hc : cs[i]? = some c) (hij : i ≤ j) (hj : j < cs.length) :
    Makes cs [.insertion (j + 1) [c], .deletion i 1] ((cs.eraseIdx i).insertIdx j c) := by
  obtain ⟨hi, -⟩ := List.getElem?_eq_some_iff.mp hc
  refine .put hj (.taken (c := c) ?_ ?_)
  · rwa [List.getElem?_insertIdx_of_lt (Nat.lt_succ_of_le hij)]
  · rw [List.insertIdx_eraseIdx_of_ge hi hij]
    exact .nil _

end Makes

/-! ### Where delimiters stand -/

namespace Form

variable {d : Document} {f g : Form}

/-- A collection starts with its opening delimiter. -/
theorem Placed.exists_opening (h : Placed d.tree f) (hk : f.isCollection) :
    ∃ c, f.opening = [c] ∧ d.text[f.start]? = some c := by
  obtain ⟨o, es, hchildren, ho, hlength, -⟩ := h.exists_delimiters hk
  have hspelled : Spelled o.kind o.text := h.spelled_of_mem (by simp [hchildren, rowLeaves, leaves])
  have hopening : o.text = f.opening := hspelled.text_opener ho
  obtain ⟨c, hc⟩ := List.length_eq_one_iff.mp hlength
  have htext : f.text = c :: (rowLeaves es).flatMap Token.text := by
    rw [text, hchildren, rowLeaves, leaves, List.flatMap_append, List.flatMap_singleton, hc]
    rfl
  have hchar := h.charAt?_eq (i := 0) (by rw [htext]; exact Nat.succ_pos _)
  rw [htext] at hchar
  exact ⟨c, hopening.symm.trans hc, hchar⟩

/-- A closed collection ends with its closing delimiter. -/
theorem Placed.exists_closing (h : Placed d.tree f) (hk : f.isCollection) (hclosed : f.isClosed) :
    ∃ c, f.closing = [c] ∧ d.text[f.stop - 1]? = some c := by
  obtain ⟨o, es, t, -, hbrackets, -⟩ := h.exists_brackets hk hclosed
  have hspelled : Spelled t.kind t.text :=
    h.spelled_of_mem (by simp [hbrackets.children, rowLeaves, leaves])
  have hclosing : t.text = f.closing := hspelled.text_closer hbrackets.closer
  obtain ⟨c, hc⟩ := List.length_eq_one_iff.mp hbrackets.closer_length
  have htext : f.text = (o.text ++ (rowLeaves es).flatMap Token.text) ++ [c] := by
    rw [text, hbrackets.children, ← hc]
    simp [rowLeaves, leaves]
  have hstop := f.stop_eq_start_add
  rw [htext, List.length_append, List.length_singleton] at hstop
  have hlast := h.charAt?_eq (i := (o.text ++ (rowLeaves es).flatMap Token.text).length)
    (by rw [htext]; simp)
  rw [htext, List.getElem?_concat_length] at hlast
  refine ⟨c, hclosing.symm.trans hc, ?_⟩
  rw [hstop, ← Nat.add_assoc, Nat.add_sub_cancel]
  exact hlast

/-- The `next?` form starts behind the form. -/
theorem Placed.stop_le_of_next? (h : Placed d.tree f) (hk : f.kind.isForm)
    (hg : f.next? = some g) : f.stop ≤ g.start ∧ g.start < g.stop := by
  obtain ⟨c, pre, post, hc, -, hfollowed, hstop⟩ := h.exists_followed hk
  obtain ⟨c', hc', hfind⟩ := Option.bind_eq_some_iff.mp hg
  obtain rfl := Option.some.inj (hfollowed.container.symm.trans hc')
  have hlt := List.find?_some hfind
  rw [decide_eq_true_eq, hfollowed.start] at hlt
  obtain ⟨hgnodes, hgform⟩ := List.mem_filter.mp (List.mem_of_find?_eq_some hfind)
  -- the form with its prefixes is a node of the container
  have hmem : ofNode f.outermost.kind (c.start + rowWidth pre) f.outermost.children
      (c.toSite :: c.around) ∈ c.nodes := by
    rw [nodes, hfollowed.children]
    exact mem_inRow
  obtain ⟨-, m, -, -, -, hgstart⟩ := exists_between hmem hgnodes hlt
  have hend : f.outermost.stop = c.start + rowWidth pre + rowWidth f.outermost.children := by
    rw [← hfollowed.start]
    exact f.outermost.stop_eq
  have hgstart : g.start = c.start + rowWidth pre + rowWidth f.outermost.children + rowWidth m :=
    hgstart
  exact ⟨by omega, (hc.of_mem_nodes hgnodes).start_lt_stop hgform⟩

end Form

/-! ### What the edits make -/

/-- The text `out` is that of `d` with one delimiter of the closed collection `f` put at another
place. -/
def Document.DelimiterMoved (d : Document) (f : Form) (out : List Char) : Prop :=
  f.isCollection ∧ f.isClosed ∧
    ∃ i j c, (i = f.start ∧ f.opening = [c] ∨ i + 1 = f.stop ∧ f.closing = [c]) ∧
      d.text[i]? = some c ∧ j ≠ i ∧ j < d.length ∧ out = (d.text.eraseIdx i).insertIdx j c

/-- The delimiters that the collection `f` has are taken out of the text of `d`: both when it is
closed, else the opener. -/
def Document.DelimitersTaken (d : Document) (f : Form) (out : List Char) : Prop :=
  ∃ o, f.opening = [o] ∧ d.text[f.start]? = some o ∧
    (f.isClosed ∧ (∃ c, f.closing = [c] ∧ d.text[f.stop - 1]? = some c) ∧
        out = (d.text.eraseIdx (f.stop - 1)).eraseIdx f.start ∨
      ¬f.isClosed ∧ out = d.text.eraseIdx f.start)

/-- The pair of delimiters `p` is put into the text `cs`, the opener not behind the closer. -/
def Delimiters.PutInto (p : Delimiters) (cs out : List Char) : Prop :=
  ∃ a b o c, p.opening = [o] ∧ p.closing = [c] ∧ a ≤ b ∧ b ≤ cs.length ∧
    out = (cs.insertIdx b c).insertIdx a o

/-- The forms `f` and `g` change places, and what is before, between and after them stays. -/
def Document.Exchanged (d : Document) (f g : Form) (out : List Char) : Prop :=
  ∃ before mid after, d.text = before ++ (f.text ++ (mid ++ (g.text ++ after))) ∧
    f.start = before.length ∧ g.start = (before ++ (f.text ++ mid)).length ∧
    out = before ++ (g.text ++ (mid ++ (f.text ++ after)))

namespace Document

open Form (Placed)

variable {d : Document} {offset : Nat} {f : Form} {r : Edit}

/-- The opener of a closed collection is put further back or further on. -/
theorem delimiterMoved_opening (h : Placed d.tree f) (hk : f.isCollection) (hclosed : f.isClosed)
    {j : Nat} (hne : j ≠ f.start) (hj : j < d.length) :
    ∃ c, f.opening = [c] ∧ d.text[f.start]? = some c ∧
      d.DelimiterMoved f ((d.text.eraseIdx f.start).insertIdx j c) := by
  obtain ⟨c, hc, hchar⟩ := h.exists_opening hk
  exact ⟨c, hc, hchar, hk, hclosed, f.start, j, c, .inl ⟨rfl, hc⟩, hchar, hne, hj, rfl⟩

/-- The closer of a closed collection is put further back or further on. -/
theorem delimiterMoved_closing (h : Placed d.tree f) (hk : f.isCollection) (hclosed : f.isClosed)
    {j : Nat} (hne : j ≠ f.stop - 1) (hj : j < d.length) :
    ∃ c, f.closing = [c] ∧ d.text[f.stop - 1]? = some c ∧
      d.DelimiterMoved f ((d.text.eraseIdx (f.stop - 1)).insertIdx j c) := by
  obtain ⟨c, hc, hchar⟩ := h.exists_closing hk hclosed
  have hlt := (h.framed hk).closed_lt hclosed
  have hlast : f.stop - 1 + 1 = f.stop := by omega
  exact ⟨c, hc, hchar, hk, hclosed, f.stop - 1, j, c, .inr ⟨hlast, hc⟩, hchar, hne, hj, rfl⟩

theorem slurp?_moves {backward : Bool} (h : d.slurp? offset backward = some r) :
    ∃ out, Makes d.text r.changes out ∧ ∃ f ∈ d.outward offset, d.DelimiterMoved f out := by
  obtain ⟨f, hmem, hf⟩ := List.exists_of_findSome?_eq_some h
  obtain ⟨hplaced, hframed⟩ := placed_of_mem_outward hmem
  have hk := isCollection_of_mem_outward hmem
  have hstop := hplaced.stop_le
  obtain ⟨hclosed, hf⟩ := Option.ite_none_right_eq_some.mp hf
  have hlt := hframed.closed_lt hclosed
  obtain ⟨g, hg, rfl⟩ := Option.map_eq_some_iff.mp hf
  cases backward with
  | true =>
    obtain ⟨-, hbefore⟩ := hplaced.of_prev? hg
    have hj : g.start < d.length := by omega
    obtain ⟨c, hc, hchar, hmoved⟩ :=
      delimiterMoved_opening hplaced hk hclosed (Nat.ne_of_lt hbefore) hj
    refine ⟨_, ?_, f, hmem, hmoved⟩
    show Makes d.text [.deletion f.start f.opening.length, .insertion g.start f.opening] _
    rw [hc]
    exact .taken_put hchar hj
  | false =>
    obtain ⟨hle, hgstop⟩ := hplaced.stop_le_of_next? (Kind.isForm_of_isCollection hk) hg
    have hend := (hplaced.of_next? hg).1.stop_le
    have hj : g.stop - 1 < d.length := by omega
    obtain ⟨c, hc, hchar, hmoved⟩ := delimiterMoved_closing hplaced hk hclosed (by omega) hj
    refine ⟨_, ?_, f, hmem, hmoved⟩
    show Makes d.text [.deletion (f.stop - f.closing.length) f.closing.length,
      .insertion (g.stop - f.closing.length) f.closing] _
    rw [hc]
    exact .taken_put hchar hj

/-- A form of a collection has a character, and it is between the opener and `innerStop`. -/
theorem bounds_of_mem_forms (h : Placed d.tree f) (hk : f.isCollection) {g : Form}
    (hg : g ∈ f.forms) : f.start + 1 ≤ g.start ∧ g.start < g.stop ∧ g.stop ≤ f.innerStop := by
  obtain ⟨hstart, -, hstop⟩ := (h.framed hk).bounds_of_mem hg
  exact ⟨hstart, (h.of_mem_forms hg).start_lt_stop (List.mem_filter.mp hg).2, hstop⟩

/-- The opener of a collection is moved on, over the first form. -/
theorem lt_barfPoint_backward (h : Placed d.tree f) (hk : f.isCollection) (hne : f.forms ≠ []) :
    let target := match f.forms[1]? with
      | some g => g.start
      | none => f.innerStop
    f.start + 1 < target ∧ target ≤ f.innerStop := by
  have hpairs := f.pairwise_forms
  match hforms : f.forms with
  | [] => exact absurd hforms hne
  | [first] =>
    have hfirst := bounds_of_mem_forms h hk (g := first) (by simp [hforms])
    show f.start + 1 < f.innerStop ∧ f.innerStop ≤ f.innerStop
    omega
  | first :: second :: gs =>
    rw [hforms] at hpairs
    have hfirst := bounds_of_mem_forms h hk (g := first) (by simp [hforms])
    have hsecond := bounds_of_mem_forms h hk (g := second) (by simp [hforms])
    have hle := (List.pairwise_cons.mp hpairs).1 second List.mem_cons_self
    show f.start + 1 < second.start ∧ second.start ≤ f.innerStop
    omega

/-- The closer of a collection is moved back to its `barfPoint`, over the last form. -/
theorem barfPoint_lt (h : Placed d.tree f) (hk : f.isCollection) (hne : f.forms ≠ []) :
    f.barfPoint < f.innerStop := by
  have hpairs := f.pairwise_forms
  obtain ⟨fs, last, hforms⟩ := (List.eq_nil_or_concat' f.forms).resolve_left hne
  have hlast := bounds_of_mem_forms h hk (g := last) (by simp [hforms])
  rw [hforms, List.pairwise_append] at hpairs
  rw [Form.barfPoint, hforms, List.dropLast_concat]
  split
  · rename_i g hg
    have hle := hpairs.2.2 g (List.mem_of_getLast? hg) last (List.mem_singleton_self last)
    omega
  · rw [(h.framed hk).innerStart_eq]
    omega

/-- A `barf?` moves the opener of the innermost collection on, or its closer back. -/
theorem barf?_eq_some {backward : Bool} (h : d.barf? offset backward = some r) :
    ∃ f, d.innermost? offset = some f ∧ f.isClosed ∧
      ((∃ target, f.start + 1 < target ∧ target ≤ f.innerStop ∧
          r.changes = [.insertion target f.opening, .deletion f.start f.opening.length]) ∨
        ∃ target, target < f.innerStop ∧
          r.changes = [.deletion f.innerStop f.closing.length, .insertion target f.closing]) := by
  rw [barf?] at h
  split at h
  · cases h
  · rename_i f hf
    have hplaced := (framed_of_innermost? hf).1
    have hk := (innermost?_eq_some hf).2.1
    dsimp only at h
    split at h
    · cases h
    · rename_i hholds
      rw [Bool.or_eq_true, Bool.not_eq_true', not_or, Bool.not_eq_false,
        List.isEmpty_iff] at hholds
      obtain ⟨hclosed, hne⟩ := hholds
      refine ⟨f, hf, hclosed, ?_⟩
      split at h
      · obtain rfl := Option.some.inj h
        obtain ⟨hlt, hle⟩ := lt_barfPoint_backward hplaced hk hne
        exact .inl ⟨_, hlt, hle, rfl⟩
      · obtain rfl := Option.some.inj h
        exact .inr ⟨f.barfPoint, barfPoint_lt hplaced hk hne, rfl⟩

theorem barf?_moves {backward : Bool} (h : d.barf? offset backward = some r) :
    ∃ out, Makes d.text r.changes out ∧ ∃ f, d.innermost? offset = some f ∧
      d.DelimiterMoved f out := by
  obtain ⟨f, hf, hclosed, htarget⟩ := barf?_eq_some h
  obtain ⟨hplaced, hframed, -⟩ := framed_of_innermost? hf
  have hk := (innermost?_eq_some hf).2.1
  have hstop := hplaced.stop_le
  have hend := hframed.innerStop_of_isClosed hclosed
  rcases htarget with ⟨target, hlt, hle, hchanges⟩ | ⟨target, hlt, hchanges⟩
  · -- without the opener the place of the new one is one character further back
    obtain ⟨j, rfl⟩ : ∃ j, target = j + 1 := ⟨target - 1, by omega⟩
    have hj : j < d.length := by omega
    obtain ⟨c, hc, hchar, hmoved⟩ := delimiterMoved_opening hplaced hk hclosed (by omega) hj
    refine ⟨_, ?_, f, hf, hmoved⟩
    rw [hchanges, hc]
    exact .put_taken hchar (by omega) hj
  · have hinner : f.innerStop = f.stop - 1 := by omega
    have hj : target < d.length := by omega
    obtain ⟨c, hc, hchar, hmoved⟩ := delimiterMoved_closing hplaced hk hclosed (by omega) hj
    refine ⟨_, ?_, f, hf, hmoved⟩
    rw [hchanges, hc, hinner]
    exact .taken_put hchar hj

theorem splice?_takes (h : d.splice? offset = some r) :
    ∃ out, Makes d.text r.changes out ∧ ∃ f, d.innermost? offset = some f ∧
      d.DelimitersTaken f out := by
  obtain ⟨f, hf, rfl⟩ := Option.map_eq_some_iff.mp h
  obtain ⟨hplaced, hframed, -⟩ := framed_of_innermost? hf
  have hk := (innermost?_eq_some hf).2.1
  obtain ⟨o, ho, hopener⟩ := hplaced.exists_opening hk
  show ∃ out, Makes d.text (uncloseChanges f ++ [.deletion f.start f.opening.length]) out ∧ _
  rw [uncloseChanges, ho]
  by_cases hclosed : f.isClosed
  · obtain ⟨c, hc, hcloser⟩ := hplaced.exists_closing hk hclosed
    have hlt := hframed.closed_lt hclosed
    have hend := hframed.innerStop_of_isClosed hclosed
    have hinner : f.innerStop = f.stop - 1 := by omega
    -- the opener is where it was when the closer is gone
    have hopener' : (d.text.eraseIdx (f.stop - 1))[f.start]? = some o := by
      rwa [List.getElem?_eraseIdx_of_lt (by omega)]
    rw [if_pos hclosed, hinner, hc]
    exact ⟨_, .taken hcloser (.taken hopener' (.nil _)), f, hf, o, ho, hopener,
      .inl ⟨hclosed, ⟨c, hc, hcloser⟩, rfl⟩⟩
  · rw [if_neg hclosed]
    exact ⟨_, .taken hopener (.nil _), f, hf, o, ho, hopener, .inr ⟨hclosed, rfl⟩⟩

/-- Without a `wrapTarget?` to put them around, the delimiters are put in side by side. -/
theorem wrap?_of_wrapTarget?_eq_none {o : Edit.Options} (ho : o.otherEnd = none)
    (h : d.wrapTarget? offset = none) :
    d.wrap? offset o =
      some ⟨[.insertion offset
          ((o.delimiters.getD .parens).opening ++ (o.delimiters.getD .parens).closing)],
        offset + (o.delimiters.getD .parens).opening.length⟩ := by
  have hregion : o.region? offset = none := by rw [Edit.Options.region?, ho]
  unfold wrapTarget? at h
  unfold wrap?
  split at h
  · cases h
  · rename_i hfind
    simp only [hregion, hfind, h]

theorem wrap?_puts (hoffset : offset ≤ d.length) {o : Edit.Options} (ho : o.otherEnd = none) :
    ∃ r out, d.wrap? offset o = some r ∧ Makes d.text r.changes out ∧
      (o.delimiters.getD .parens).PutInto d.text out := by
  obtain ⟨-, -, p, q, -, -, -, -, hp, hq⟩ := (o.delimiters.getD .parens).exists_glyphs
  have hputs : ∀ {a b : Nat}, a ≤ b → b ≤ d.length →
      (o.delimiters.getD .parens).PutInto d.text ((d.text.insertIdx b q).insertIdx a p) :=
    fun hab hb => ⟨_, _, p, q, hp, hq, hab, hb, rfl⟩
  cases htarget : d.wrapTarget? offset with
  | some f =>
    have hstop := (placed_of_mem_container (mem_of_wrapTarget? htarget)).stop_le
    have hle := f.start_le_stop
    refine ⟨_, _, wrap?_of_wrapTarget? ho htarget, ?_, hputs hle hstop⟩
    rw [hp, hq]
    refine .put hstop (.put ?_ (.nil _))
    rw [List.length_insertIdx_of_le_length hstop]
    exact hle.trans (hstop.trans (Nat.le_succ _))
  | none =>
    refine ⟨_, _, wrap?_of_wrapTarget?_eq_none ho htarget, ?_, hputs (Nat.le_refl offset) hoffset⟩
    have hlength : (d.text.take offset).length = offset := List.length_take_of_le hoffset
    have hle : offset ≤ (d.text.take offset ++ ([q] ++ d.text.drop offset)).length := by
      rw [List.length_append, hlength]
      exact Nat.le_add_right _ _
    refine .insertion (d.text.take offset) (d.text.drop offset)
      (List.take_append_drop offset d.text).symm hlength.symm ?_
    rw [hp, hq, Text.insertIdx_eq q hoffset, Text.insertIdx_eq p hle, List.take_left' hlength,
      List.drop_left' hlength]
    exact .nil _

/-- The text of a `Placed` node comes before the rest of the text. -/
theorem drop_start (h : Placed d.tree f) : d.text.drop f.start = f.text ++ d.text.drop f.stop := by
  have hslice := h.slice_eq
  have hle := f.start_le_stop
  rw [Text.slice] at hslice
  rw [← hslice, ← List.drop_append_of_le_length, List.take_append_drop]
  rw [List.length_take_of_le h.stop_le]
  exact hle

theorem transpose?_exchanges (h : d.transpose? offset = some r) :
    ∃ out, Makes d.text r.changes out ∧ ∃ f ∈ (d.container offset).forms,
      ∃ g ∈ (d.container offset).forms, f.stop ≤ g.start ∧ d.Exchanged f g out := by
  obtain ⟨⟨f, g⟩, hneighbours, rfl⟩ := Option.map_eq_some_iff.mp h
  obtain ⟨hf, hg, hle⟩ := neighbours?_bounds hneighbours
  have hfplaced := placed_of_mem_container hf
  have hgplaced := placed_of_mem_container hg
  let before := d.text.take f.start
  let mid := (d.text.drop f.stop).take (g.start - f.stop)
  let after := d.text.drop g.stop
  have hmid : d.text.drop f.stop = mid ++ (g.text ++ after) := by
    rw [← drop_start hgplaced, ← Nat.add_sub_of_le hle, ← List.drop_drop]
    exact (List.take_append_drop _ _).symm
  have htext : d.text = before ++ (f.text ++ (mid ++ (g.text ++ after))) := by
    rw [← hmid, ← drop_start hfplaced]
    exact (List.take_append_drop _ _).symm
  have hstop := hgplaced.stop_le
  have hfstop := f.stop_eq_start_add
  have hgstart := g.start_le_stop
  have hbefore : f.start = before.length := by
    rw [List.length_take_of_le (hfplaced.stop_le.trans' f.start_le_stop)]
  have hsecond : g.start = (before ++ (f.text ++ mid)).length := by
    have hlength : mid.length = g.start - f.stop := by
      rw [List.length_take_of_le]
      rw [List.length_drop]
      exact Nat.sub_le_sub_right (hgstart.trans hstop) f.stop
    rw [List.length_append, List.length_append, hlength]
    omega
  refine ⟨before ++ (g.text ++ (mid ++ (f.text ++ after))), ?_, f, hf, g, hg, hle, before, mid,
    after, htext, hbefore, hsecond, rfl⟩
  show Makes d.text [.deletion g.start g.length, .insertion g.start f.text,
    .deletion f.start f.length, .insertion f.start g.text] _
  rw [htext, hbefore, hsecond, ← f.length_text, ← g.length_text]
  exact .exchanged before f.text mid g.text after

/-- **Rearranging loses no text.**  At every offset of every document: slurping and barfing, on
either side, take one delimiter of a closed collection around the offset out of the text and put it
back at another place.  Splicing takes out just the delimiters that the innermost collection has.  Wrapping
without a selection always puts one opener and the closer that goes with it into the text.
Transposing exchanges the texts of two forms of one row, the first of which ends before the second
starts. -/
theorem rearranging_loses_no_text (hoffset : offset ≤ d.length) :
    (∀ backward r, d.slurp? offset backward = some r →
        ∃ out, Makes d.text r.changes out ∧ ∃ f ∈ d.outward offset, d.DelimiterMoved f out) ∧
      (∀ backward r, d.barf? offset backward = some r →
        ∃ out, Makes d.text r.changes out ∧ ∃ f, d.innermost? offset = some f ∧
          d.DelimiterMoved f out) ∧
      (∀ r, d.splice? offset = some r →
        ∃ out, Makes d.text r.changes out ∧ ∃ f, d.innermost? offset = some f ∧
          d.DelimitersTaken f out) ∧
      (∀ o : Edit.Options, o.otherEnd = none →
        ∃ r out, d.wrap? offset o = some r ∧ Makes d.text r.changes out ∧
          (o.delimiters.getD .parens).PutInto d.text out) ∧
      ∀ r, d.transpose? offset = some r →
        ∃ out, Makes d.text r.changes out ∧ ∃ f ∈ (d.container offset).forms,
          ∃ g ∈ (d.container offset).forms, f.stop ≤ g.start ∧ d.Exchanged f g out := by
  refine ⟨fun backward r h => ?_, fun backward r h => ?_, fun r h => ?_, fun o ho => ?_,
    fun r h => ?_⟩
  · exact slurp?_moves h
  · exact barf?_moves h
  · exact splice?_takes h
  · exact wrap?_puts hoffset ho
  · exact transpose?_exchanges h

/-- All five edits apply between `b` and `c`.  The comment, the stray closer and the collection that
is not closed stay where they are. -/
theorem rearranging_loses_no_text_untidy :
    let d := ofText "] a ;x\n#(b c) [d".toList
    (d.slurp? 11 false = some ⟨[.deletion 12 1, .insertion 15 ")".toList], 11⟩ ∧
      ∃ out, Makes d.text [.deletion 12 1, .insertion 15 ")".toList] out ∧
        ∃ f ∈ d.outward 11, d.DelimiterMoved f out) ∧
      (d.barf? 11 true = some ⟨[.insertion 11 "(".toList, .deletion 8 1], 11⟩ ∧
        ∃ out, Makes d.text [.insertion 11 "(".toList, .deletion 8 1] out ∧
          ∃ f, d.innermost? 11 = some f ∧ d.DelimiterMoved f out) ∧
      (d.splice? 11 = some ⟨[.deletion 12 1, .deletion 8 1], 10⟩ ∧
        ∃ out, Makes d.text [.deletion 12 1, .deletion 8 1] out ∧
          ∃ f, d.innermost? 11 = some f ∧ d.DelimitersTaken f out) ∧
      (∃ r out, d.wrap? 11 { delimiters := some .square } = some r ∧ Makes d.text r.changes out ∧
        Delimiters.square.PutInto d.text out) ∧
      d.transpose? 11 = some ⟨[.deletion 11 1, .insertion 11 "b".toList, .deletion 9 1,
          .insertion 9 "c".toList], 12⟩ ∧
        ∃ out, Makes d.text [.deletion 11 1, .insertion 11 "b".toList, .deletion 9 1,
            .insertion 9 "c".toList] out ∧
          ∃ f ∈ (d.container 11).forms, ∃ g ∈ (d.container 11).forms, f.stop ≤ g.start ∧
            d.Exchanged f g out := by
  intro d
  have hslurp : d.slurp? 11 false = some ⟨[.deletion 12 1, .insertion 15 ")".toList], 11⟩ := by
    decide +kernel
  have hbarf : d.barf? 11 true = some ⟨[.insertion 11 "(".toList, .deletion 8 1], 11⟩ := by
    decide +kernel
  have hsplice : d.splice? 11 = some ⟨[.deletion 12 1, .deletion 8 1], 10⟩ := by
    decide +kernel
  have htranspose : d.transpose? 11 = some ⟨[.deletion 11 1, .insertion 11 "b".toList,
      .deletion 9 1, .insertion 9 "c".toList], 12⟩ := by
    decide +kernel
  have hoffset : 11 ≤ d.length := by decide +kernel
  obtain ⟨hslurps, hbarfs, hsplices, hwraps, htransposes⟩ := rearranging_loses_no_text hoffset
  exact ⟨⟨hslurp, hslurps false _ hslurp⟩, ⟨hbarf, hbarfs true _ hbarf⟩,
    ⟨hsplice, hsplices _ hsplice⟩, hwraps { delimiters := some .square } rfl, htranspose,
    htransposes _ htranspose⟩

end Document

end SexpEdit
