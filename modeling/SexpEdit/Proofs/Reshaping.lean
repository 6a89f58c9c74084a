/-
Reshaping keeps a text balanced.

The edits that move delimiters turn a text `A ++ X ++ B` into `A ++ X' ++ B`, where a watch is not
inside a string after `A`, and both `X` and `X'` leave it as it is.  So the new text is read to the
same end as the old one.  `X` and `X'` are put together from the same parts: rows of trees between
two cuts, and delimiters that match.

* `Form.Encloses.splice`, `Form.Encloses.barf_forward`, `Form.Encloses.barf_backward`,
  `Form.Encloses.split` — edits inside one collection;
* `Form.Contains.transpose`, `Form.Contains.wrap` — edits in the row of a container;
* `StructuralEdit.reshape_keeps_balance` — each of these edits leads from a balanced text to a
  balanced text.
-/
import SexpEdit.Operation
import SexpEdit.Proofs.Segment
import SexpEdit.Proofs.Splicing

namespace SexpEdit

open SexpEdit.Tree Watch
open Token (Settled Stops scan)

/-- The `changes` make of `cs` a text that a watch reads to the end, and waits for nothing then. -/
def Reforms (cs : List Char) (changes : List Change) : Prop :=
  ∃ out, Makes cs changes out ∧ Reads [] out []

theorem Reforms.replace (after : List Char) {cs before old new : List Char} {changes : List Change}
    {w : Watch} (hread : Reads [] cs []) (hcs : cs = before ++ (old ++ after))
    (hbefore : run ⟨.code, []⟩ before = some w) (hold : Neutral w.mode old)
    (hnew : Neutral w.mode new) (hmakes : Makes cs changes (before ++ (new ++ after))) :
    Reforms cs changes := by
  refine ⟨_, hmakes, ?_⟩
  rw [hcs] at hread
  exact hread.replace hbefore hold hnew

/-- The offset `n` is between the trees `p` and `q` of a row, and not right after a comment. -/
structure Cut (L : List Token) (es : List Tree) (n : Nat) (p q : List Tree) : Prop where
  split : es = p ++ q
  offset : n = (L.flatMap Token.text).length + rowWidth p
  stops : Stops (L ++ rowLeaves p)

/-- Two cuts `m` and `n` in order leave a part of the text between them. -/
theorem Cut.exists_between {L : List Token} {es p q p' q' : List Tree} {m n : Nat}
    (h : Cut L es m p q) (h' : Cut L es n p' q') (hle : m ≤ n) :
    ∃ mid : List Char, rowText es = rowText p ++ (mid ++ rowText q') ∧ mid.length = n - m := by
  have hm := h.offset
  have hn := h'.offset
  rcases List.append_eq_append_iff.mp (h.split.symm.trans h'.split) with ⟨t, hp', hq⟩ | ⟨t, hp, hq'⟩
  · refine ⟨rowText t, ?_, ?_⟩
    · rw [h.split, hq, rowText_append, rowText_append]
    · rw [length_rowText]
      rw [hp', rowWidth_append] at hn
      omega
  · -- the cuts are at the same offset, so nothing is between them
    rw [hp, rowWidth_append] at hm
    have hwidth : (rowText t).length = 0 := by
      rw [length_rowText]
      omega
    refine ⟨[], ?_, ?_⟩
    · rw [h.split, hq', rowText_append, rowText_append, List.length_eq_zero_iff.mp hwidth]
      rfl
    · rw [List.length_nil]
      omega

theorem Cut.le {L : List Token} {es p q : List Tree} {n : Nat} (h : Cut L es n p q) :
    (L.flatMap Token.text).length ≤ n ∧ n ≤ (L.flatMap Token.text).length + rowWidth es := by
  have hn := h.offset
  rw [h.split, rowWidth_append]
  omega

namespace Form

variable {cs : List Char} {f g : Form} {L R : List Token} {o c : Token} {es : List Tree}

/-! ### Where a row can be cut -/

namespace Contains

theorem exists_split (h : f.Contains cs L es R) (hg : g ∈ f.forms) :
    ∃ x y, es = x ++ .node g.kind g.children :: y ∧
      g.start = (L.flatMap Token.text).length + rowWidth x := by
  rw [h.forms] at hg
  obtain ⟨x, y, hes, hgx⟩ := exists_of_mem_inRow hg
  exact ⟨x, y, hes, congrArg (·.start) hgx⟩

theorem exists_cut_before (h : f.Contains cs L es R) (hg : g ∈ f.forms) :
    ∃ p q, Cut L es g.start p q := by
  obtain ⟨x, y, rfl, hstart⟩ := h.exists_split hg
  exact ⟨x, _, rfl, hstart, h.segment.right.stops_before⟩

theorem exists_cut_after (h : f.Contains cs L es R) (hg : g ∈ f.forms) :
    ∃ p q, Cut L es g.stop p q := by
  obtain ⟨x, y, rfl, hstart⟩ := h.exists_split hg
  have hsplit : x ++ .node g.kind g.children :: y = (x ++ [.node g.kind g.children]) ++ y := by simp
  have hseg := h.segment
  rw [hsplit] at hseg ⊢
  refine ⟨_, y, rfl, ?_, hseg.left.stops_after⟩
  have hstop : g.stop = g.start + rowWidth g.children := g.stop_eq
  rw [hstop, hstart, rowWidth_append, rowWidth, rowWidth, width]
  omega

end Contains

/-! ### Edits inside one collection -/

namespace Encloses

theorem cut_start (h : f.Encloses cs L o es c R) : Cut (L ++ [o]) es f.innerStart [] es := by
  refine ⟨rfl, ?_, ?_⟩
  · rw [h.innerStart_eq]
    rfl
  · rw [rowLeaves, List.append_nil]
    exact h.stops_start

theorem cut_end (h : f.Encloses cs L o es c R) : Cut (L ++ [o]) es f.innerStop es [] := by
  refine ⟨(List.append_nil es).symm, ?_, h.stops_end⟩
  rw [h.innerStop_eq, h.innerStart_eq]

/-- Both sides of a `Cut` are `Neutral`. -/
theorem neutral_cut (h : f.Encloses cs L o es c R) {n : Nat} {p q : List Tree}
    (hcut : Cut (L ++ [o]) es n p q) : Neutral .code (rowText p) ∧ Neutral .code (rowText q) := by
  obtain ⟨rfl, -, hstops⟩ := hcut
  have hend := h.stops_end
  rw [rowLeaves_append, ← List.append_assoc] at hend
  exact ⟨h.inner.left.neutral hstops, h.inner.right.neutral hend⟩

/-- A `Cut` in place: the text before it within the collection. -/
theorem offset_cut (h : f.Encloses cs L o es c R) {n : Nat} {p q : List Tree}
    (hcut : Cut (L ++ [o]) es n p q) :
    n = (L.flatMap Token.text ++ (f.opening ++ rowText p)).length := by
  rw [hcut.offset, ← h.opening_eq]
  simp [length_rowText]
  omega

/-- A collection may be replaced by anything that is `Neutral`. -/
theorem reforms (h : f.Encloses cs L o es c R) (hread : Reads [] cs []) {new : List Char}
    {changes : List Change} (hnew : Neutral .code new)
    (hmakes : Makes cs changes (L.flatMap Token.text ++ (new ++ R.flatMap Token.text))) :
    Reforms cs changes := by
  obtain ⟨awaited, hbefore⟩ := h.outer.run_before h.outer.stops_before
  have hold : Neutral .code (f.opening ++ (rowText es ++ f.closing)) :=
    (h.inner.neutral h.stops_end).delimit h.isCollection
  refine Reforms.replace (R.flatMap Token.text) hread ?_ hbefore hold hnew hmakes
  rw [h.text_eq]
  simp

theorem splice (h : f.Encloses cs L o es c R) (hread : Reads [] cs []) :
    Reforms cs (Document.uncloseChanges f ++ [.deletion f.start f.opening.length]) := by
  refine h.reforms hread (h.inner.neutral h.stops_end) ?_
  rw [Document.uncloseChanges, if_pos h.isClosed]
  refine .deletion (L.flatMap Token.text ++ (f.opening ++ rowText es)) f.closing
    (R.flatMap Token.text) (by rw [h.text_eq]; simp) (h.offset_cut h.cut_end) rfl ?_
  refine .deletion (L.flatMap Token.text) f.opening (rowText es ++ R.flatMap Token.text) (by simp)
    h.start rfl ?_
  exact .nil _

/-- The closer moves back to the cut `n`. -/
theorem barf_forward (h : f.Encloses cs L o es c R) (hread : Reads [] cs []) {n : Nat}
    {p q : List Tree} (hcut : Cut (L ++ [o]) es n p q) :
    Reforms cs [.deletion f.innerStop f.closing.length, .insertion n f.closing] := by
  obtain ⟨hp, hq⟩ := h.neutral_cut hcut
  have hnew : Neutral .code ((f.opening ++ (rowText p ++ f.closing)) ++ rowText q) :=
    (hp.delimit h.isCollection).append hq
  refine h.reforms hread hnew ?_
  refine .deletion (L.flatMap Token.text ++ (f.opening ++ rowText es)) f.closing
    (R.flatMap Token.text) (by rw [h.text_eq]; simp) (h.offset_cut h.cut_end) rfl ?_
  refine .insertion (L.flatMap Token.text ++ (f.opening ++ rowText p))
    (rowText q ++ R.flatMap Token.text) (by rw [hcut.split]; simp) (h.offset_cut hcut) ?_
  simpa using Makes.nil _

/-- The opener moves on to the cut `n`. -/
theorem barf_backward (h : f.Encloses cs L o es c R) (hread : Reads [] cs []) {n : Nat}
    {p q : List Tree} (hcut : Cut (L ++ [o]) es n p q) :
    Reforms cs [.insertion n f.opening, .deletion f.start f.opening.length] := by
  obtain ⟨hp, hq⟩ := h.neutral_cut hcut
  have hnew : Neutral .code (rowText p ++ (f.opening ++ (rowText q ++ f.closing))) :=
    hp.append (hq.delimit h.isCollection)
  refine h.reforms hread hnew ?_
  refine .insertion (L.flatMap Token.text ++ (f.opening ++ rowText p))
    (rowText q ++ (f.closing ++ R.flatMap Token.text)) ?_ (h.offset_cut hcut) ?_
  · rw [h.text_eq, hcut.split]
    simp
  refine .deletion (L.flatMap Token.text) f.opening
    (rowText p ++ (f.opening ++ (rowText q ++ (f.closing ++ R.flatMap Token.text)))) (by simp)
    h.start rfl ?_
  simpa using Makes.nil _

/-- What stands between the cuts `m` and `n` is replaced by a closer, a blank and an opener. -/
theorem split (h : f.Encloses cs L o es c R) (hread : Reads [] cs []) {m n : Nat}
    {p q p' q' : List Tree} (hcut : Cut (L ++ [o]) es m p q) (hcut' : Cut (L ++ [o]) es n p' q')
    (hle : m ≤ n) :
    Reforms cs ((if m < n then [Change.deletion m (n - m)] else []) ++
      [.insertion m (f.closing ++ [' '] ++ f.opening)]) := by
  obtain ⟨mid, hmid, hlen⟩ := hcut.exists_between hcut' hle
  obtain ⟨hp, -⟩ := h.neutral_cut hcut
  obtain ⟨-, hq⟩ := h.neutral_cut hcut'
  have hnew : Neutral .code ((f.opening ++ (rowText p ++ f.closing)) ++
      ([' '] ++ (f.opening ++ (rowText q' ++ f.closing)))) :=
    (hp.delimit h.isCollection).append (neutral_space.append (hq.delimit h.isCollection))
  have hinsert : Makes (L.flatMap Token.text ++ (f.opening ++ rowText p) ++
      (rowText q' ++ (f.closing ++ R.flatMap Token.text)))
      [.insertion m (f.closing ++ [' '] ++ f.opening)]
      (L.flatMap Token.text ++ (((f.opening ++ (rowText p ++ f.closing)) ++
        ([' '] ++ (f.opening ++ (rowText q' ++ f.closing)))) ++ R.flatMap Token.text)) := by
    refine .insertion _ _ rfl (h.offset_cut hcut) ?_
    simpa using Makes.nil _
  refine h.reforms hread hnew ?_
  split
  · refine .deletion (L.flatMap Token.text ++ (f.opening ++ rowText p)) mid
      (rowText q' ++ (f.closing ++ R.flatMap Token.text)) ?_ (h.offset_cut hcut) hlen.symm hinsert
    rw [h.text_eq, hmid]
    simp
  · have hnil : mid = [] := List.length_eq_zero_iff.mp (by omega)
    rw [hnil, List.nil_append] at hmid
    have hcs : cs = L.flatMap Token.text ++ (f.opening ++ rowText p) ++
        (rowText q' ++ (f.closing ++ R.flatMap Token.text)) := by
      rw [h.text_eq, hmid]
      simp
    rw [List.nil_append]
    rw [← hcs] at hinsert
    exact hinsert

/-- What is blank around the offset `n` is replaced by a closer, a blank and an opener. -/
theorem split_at (h : f.Encloses cs L o es c R) (hread : Reads [] cs []) {n : Nat}
    (hn : f.innerStart ≤ n ∧ n ≤ f.innerStop) :
    let left := match lastBefore? f.forms n with
      | some g => g.stop
      | none => f.innerStart
    let right := match firstAfter? f.forms n with
      | some g => g.start
      | none => f.innerStop
    Reforms cs ((if left < right then [Change.deletion left (right - left)] else []) ++
      [.insertion left (f.closing ++ [' '] ++ f.opening)]) := by
  intro left right
  have hleft : left ≤ n ∧ ∃ p q, Cut (L ++ [o]) es left p q := by
    simp only [left]
    split
    · rename_i g hg
      obtain ⟨hmem, hle⟩ := List.mem_filter.mp (List.mem_of_getLast? hg)
      exact ⟨by simpa using hle, h.contains.exists_cut_after hmem⟩
    · exact ⟨hn.1, _, _, h.cut_start⟩
  have hright : n ≤ right ∧ ∃ p q, Cut (L ++ [o]) es right p q := by
    simp only [right]
    split
    · rename_i g hg
      have hle := List.find?_some hg
      exact ⟨by simpa using hle, h.contains.exists_cut_before (List.mem_of_find?_eq_some hg)⟩
    · exact ⟨hn.2, _, _, h.cut_end⟩
  obtain ⟨hle, p, q, hp⟩ := hleft
  obtain ⟨hge, p', q', hq⟩ := hright
  exact h.split hread hp hq (Nat.le_trans hle hge)

end Encloses

/-! ### Edits in the row of a container -/

theorem rowText_node_cons (f : Form) (ts : List Tree) :
    rowText (.node f.kind f.children :: ts) = f.text ++ rowText ts := by
  simp only [rowText, rowLeaves, leaves, List.flatMap_append]
  rfl

namespace Contains

/-- The form `f` of a container in place: what is before it and after it. -/
theorem exists_single {b : Form} (h : b.Contains cs L es R) (hf : f ∈ b.forms) :
    ∃ before after, cs = before ++ (f.text ++ after) ∧ f.start = before.length ∧
      (∃ awaited, run ⟨.code, []⟩ before = some ⟨.code, awaited⟩) ∧ Neutral .code f.text := by
  obtain ⟨x, y, rfl, hstart⟩ := h.exists_split hf
  have hseg := h.segment.right
  obtain ⟨awaited, hbefore⟩ := hseg.run_before hseg.stops_before
  refine ⟨L.flatMap Token.text ++ rowText x, rowText y ++ R.flatMap Token.text, ?_, ?_,
    ⟨awaited, ?_⟩, hseg.neutral_node⟩
  · rw [h.segment.text_eq]
    simp [rowText_node_cons]
  · rw [hstart, List.length_append, length_rowText]
  · rw [← hbefore, List.flatMap_append]
    rfl

/-- Two forms of a container in place: what is before the first, between them and after the
second. -/
theorem exists_pair {b : Form} (h : b.Contains cs L es R) (hf : f ∈ b.forms) (hg : g ∈ b.forms)
    (hlt : f.start < g.start) :
    ∃ before mid after, cs = before ++ (f.text ++ (mid ++ (g.text ++ after))) ∧
      f.start = before.length ∧ g.start = (before ++ (f.text ++ mid)).length ∧
      (∃ awaited, run ⟨.code, []⟩ before = some ⟨.code, awaited⟩) ∧
      Neutral .code f.text ∧ Neutral .code mid ∧ Neutral .code g.text := by
  rw [h.forms] at hf hg
  obtain ⟨x, m, y, rfl, hfstart, hgstart⟩ := exists_between hf hg hlt
  have hseg := h.segment.right
  have hrest := hseg.tail
  obtain ⟨awaited, hbefore⟩ := hseg.run_before hseg.stops_before
  refine ⟨L.flatMap Token.text ++ rowText x, rowText m, rowText y ++ R.flatMap Token.text, ?_, ?_,
    ?_, ⟨awaited, ?_⟩, hseg.neutral_node, hrest.left.neutral hrest.right.stops_before,
    hrest.right.neutral_node⟩
  · rw [h.segment.text_eq]
    simp [rowText_node_cons]
  · rw [hfstart, List.length_append, length_rowText]
  · rw [hgstart, stop_eq_start_add, hfstart]
    simp only [List.length_append, length_rowText]
    omega
  · rw [← hbefore, List.flatMap_append]
    rfl

/-- The forms `f` and `g` of a container change places. -/
theorem transpose {b : Form} (h : b.Contains cs L es R) (hread : Reads [] cs []) (hf : f ∈ b.forms)
    (hg : g ∈ b.forms) (hlt : f.start < g.start) :
    Reforms cs [.deletion g.start g.length, .insertion g.start f.text,
      .deletion f.start f.length, .insertion f.start g.text] := by
  obtain ⟨before, mid, after, hcs, hfstart, hgstart, ⟨awaited, hbefore⟩, hfn, hmid, hgn⟩ :=
    h.exists_pair hf hg hlt
  have hold : Neutral .code (f.text ++ (mid ++ g.text)) := hfn.append (hmid.append hgn)
  have hnew : Neutral .code (g.text ++ (mid ++ f.text)) := hgn.append (hmid.append hfn)
  refine Reforms.replace after hread ?_ hbefore hold hnew ?_
  · rw [hcs]
    simp
  · rw [hcs, hfstart, hgstart, ← f.length_text, ← g.length_text]
    simpa using Makes.exchanged before f.text mid g.text after

/-- Delimiters of the kind `k` are put around the form `f` of a container. -/
theorem wrap {b : Form} (h : b.Contains cs L es R) (hread : Reads [] cs []) (hf : f ∈ b.forms)
    {k : Kind} (hk : k.isCollection) :
    Reforms cs [.insertion f.stop k.closing, .insertion f.start k.opening] := by
  obtain ⟨before, after, hcs, hstart, ⟨awaited, hbefore⟩, hneutral⟩ := h.exists_single hf
  refine Reforms.replace after hread hcs hbefore hneutral (hneutral.delimit hk) ?_
  refine .insertion (before ++ f.text) after (by rw [hcs]; simp) ?_ ?_
  · rw [stop_eq_start_add, hstart, List.length_append]
  refine .insertion before (f.text ++ (k.closing ++ after)) (by simp) hstart ?_
  simpa using Makes.nil _

end Contains

/-- A row ends in tokens, after its last node if it has one. -/
theorem exists_trailing_leaves (es : List Tree) : ∃ p q, es = p ++ q ∧ (∀ e ∈ q, ∃ t, e = .leaf t) ∧
    (p = [] ∨ ∃ x k us, p = x ++ [.node k us]) := by
  induction es with
  | nil => exact ⟨[], [], rfl, by simp, .inl rfl⟩
  | cons e es ih =>
    obtain ⟨p, q, rfl, hq, rfl | ⟨x, k, us, rfl⟩⟩ := ih
    · cases e with
      | leaf t =>
        refine ⟨[], .leaf t :: q, rfl, ?_, .inl rfl⟩
        exact List.forall_mem_cons.mpr ⟨⟨t, rfl⟩, hq⟩
      | node k us => exact ⟨[.node k us], q, rfl, hq, .inr ⟨[], k, us, rfl⟩⟩
    · exact ⟨e :: (x ++ [.node k us]), q, rfl, hq, .inr ⟨e :: x, k, us, rfl⟩⟩

theorem exists_mem_of_mem_rowLeaves {t : Token} : ∀ {ts : List Tree}, t ∈ rowLeaves ts →
    ∃ e ∈ ts, t ∈ e.leaves
  | [], h => absurd h List.not_mem_nil
  | e :: ts, h => by
    rcases List.mem_append.mp h with h | h
    · exact ⟨e, by simp, h⟩
    · obtain ⟨e', he', ht⟩ := exists_mem_of_mem_rowLeaves h
      exact ⟨e', by simp [he'], ht⟩

/-- After the last form of a container a watch is in no string. -/
theorem Contains.exists_run_take {b : Form} (h : b.Contains cs L es R) {n : Nat}
    (hforms : ∀ g ∈ b.forms, g.stop ≤ n) (hlo : (L.flatMap Token.text).length ≤ n)
    (hhi : n ≤ (L.flatMap Token.text).length + rowWidth es) :
    ∃ w : Watch, (w.mode = .code ∨ w.mode = .comment) ∧ run ⟨.code, []⟩ (cs.take n) = some w := by
  obtain ⟨p, q, rfl, hq, hp⟩ := exists_trailing_leaves es
  have hseg := h.segment
  -- the offset is after `p`, and a watch is in code there
  have hoffset : (L.flatMap Token.text).length + rowWidth p ≤ n ∧ Stops (L ++ rowLeaves p) := by
    rcases hp with rfl | ⟨x, k, us, rfl⟩
    · rw [rowLeaves, List.append_nil]
      exact ⟨hlo, h.stops⟩
    · refine ⟨?_, hseg.left.stops_after⟩
      have hmem : ofNode k ((L.flatMap Token.text).length + rowWidth x) us (b.toSite :: b.around) ∈
          b.forms := by
        rw [h.forms, List.append_assoc]
        exact mem_inRow
      have hle : (L.flatMap Token.text).length + rowWidth x + rowWidth us ≤ n := hforms _ hmem
      rw [rowWidth_append, rowWidth, rowWidth, width]
      omega
  obtain ⟨hle, hstops⟩ := hoffset
  obtain ⟨awaited, hbefore⟩ := hseg.right.run_before hstops
  -- what is left up to the offset is trivia, perhaps cut inside a comment
  have htrivia : ∀ t ∈ rowLeaves q, t.Plain ∧ t.kind.isTrivia := by
    intro t ht
    refine ⟨hseg.settled.plain t (by simp [hseg.tokens, ht]), ?_⟩
    obtain ⟨e, he, hte⟩ := exists_mem_of_mem_rowLeaves ht
    obtain ⟨u, rfl⟩ := hq e he
    obtain rfl : t = u := by simpa [leaves] using hte
    cases hseg.tidy (.leaf t) (by simp [he]) with
    | trivia hk => exact hk
  obtain ⟨m, hm, hrun⟩ := Watch.exists_run_trivia htrivia
    (n - ((L ++ rowLeaves p).flatMap Token.text).length) (.inl rfl) awaited
  have hlen : ((L ++ rowLeaves p).flatMap Token.text).length =
      (L.flatMap Token.text).length + rowWidth p := by
    rw [List.flatMap_append, List.length_append, rowWidth_eq]
  have htake : cs.take n = (L ++ rowLeaves p).flatMap Token.text ++
      (rowText q).take (n - ((L ++ rowLeaves p).flatMap Token.text).length) := by
    rw [rowWidth_append] at hhi
    have hshort : n - ((L ++ rowLeaves p).flatMap Token.text).length ≤ (rowText q).length := by
      rw [length_rowText]
      omega
    rw [hseg.right.text_eq, List.take_append, List.take_of_length_le (by omega),
      List.take_append_of_le_length hshort]
  refine ⟨⟨m, awaited⟩, hm, ?_⟩
  rw [htake, run_append, hbefore]
  exact hrun

/-- An empty collection is put in after the last form of a container. -/
theorem Contains.wrap_nothing {b : Form} (h : b.Contains cs L es R) (hread : Reads [] cs [])
    {n : Nat} (hforms : ∀ g ∈ b.forms, g.stop ≤ n) (hlo : (L.flatMap Token.text).length ≤ n)
    (hhi : n ≤ (L.flatMap Token.text).length + rowWidth es) {k : Kind} (hk : k.isCollection) :
    Reforms cs [.insertion n (k.opening ++ k.closing)] := by
  obtain ⟨w, hw, hrun⟩ := h.exists_run_take hforms hlo hhi
  have hlen : n ≤ cs.length := by
    rw [h.segment.text_eq]
    simp only [List.length_append, length_rowText]
    omega
  have hcs : cs = cs.take n ++ ([] ++ cs.drop n) := by
    rw [List.nil_append, List.take_append_drop]
  refine Reforms.replace (cs.drop n) hread hcs hrun (Neutral.nil _) (neutral_delimiters hk hw) ?_
  refine .insertion (cs.take n) (cs.drop n) hcs ?_ (.nil _)
  rw [List.length_take, Nat.min_eq_left hlen]

/-! ### Edits around a collection -/

/-- Prefixes and blanks are `Neutral`. -/
theorem neutral_prefixes {ts : List Token} (h : Settled ts)
    (hts : ∀ t ∈ ts, t.kind = .readerPrefix ∨ t.kind = .whitespace ∨ t.kind = .newline) :
    Neutral .code (ts.flatMap Token.text) := by
  intro awaited
  have hstops : Stops ts := by
    intro t ht hk
    have hkind := hts t (List.mem_of_getLast? ht)
    rw [hk] at hkind
    simp at hkind
  have hpairs := Kind.pairAll_prefixes hts awaited []
  rw [List.append_nil] at hpairs
  rw [run_tokens h, hpairs, modeAfter_of_stops hstops]
  rfl

variable {ts : List Tree}

theorem Placed.around_ne_nil (hf : Placed (.node .root ts) f) (htidy : ∀ t ∈ ts, Tidy t)
    (hk : f.isCollection) : f.around ≠ [] := by
  rcases hf.tidy htidy with rfl | ⟨hne, -⟩
  · cases hk
  · exact hne

/-- The `container?` of a collection is the document or a collection, and the collection with its
prefixes is among its forms. -/
theorem Placed.exists_contains (h : Laid cs ts) (hf : Placed (.node .root ts) f)
    (hk : f.isCollection) {b : Form} (hb : f.container? = some b) :
    f.outermost ∈ b.forms ∧ ∃ L es R, b.Contains cs L es R := by
  have htidy := h.segment.tidy
  obtain ⟨hout, hone, hkind, -⟩ := hf.outermost htidy (hf.around_ne_nil htidy hk)
  obtain ⟨p, hp, hplaced, -, hmem, pre, post, hsplit, -⟩ := hout.exists_parent hone
  -- the parent has a node inside and is no prefixed form: it is the document or a collection
  obtain rfl : p = b := Option.some.inj (hp.symm.trans hb)
  constructor
  · rcases hout.tidy htidy with heq | ⟨-, hform⟩
    · rw [heq] at hone
      exact absurd rfl hone
    · exact List.mem_filter.mpr ⟨hmem, hform.isForm⟩
  · rcases hplaced.tidy htidy with rfl | ⟨-, hform⟩
    · exact ⟨_, _, _, contains_root h⟩
    · have hchild : .node f.outermost.kind f.outermost.children ∈ p.children := by simp [hsplit]
      have hcoll := hform.isCollection_of_mem hchild (hkind p hp)
      obtain ⟨L, o, es, c, R, henc⟩ := hplaced.exists_encloses h hcoll
      exact ⟨_, _, _, henc.contains⟩

/-- A collection and the prefixes on it end together, and the prefixes are `Neutral`. -/
theorem Placed.exists_prefixes (h : Laid cs ts) (hf : Placed (.node .root ts) f)
    (hk : f.isCollection) : ∃ pre, f.outermost.text = pre ++ f.text ∧
      f.start = f.outermost.start + pre.length ∧ Neutral .code pre := by
  have htidy := h.segment.tidy
  obtain ⟨hout, hone, -, P, hP, hstart, hall⟩ := hf.outermost htidy (hf.around_ne_nil htidy hk)
  obtain ⟨L, R, hseg, -⟩ := hout.exists_segment h hone
  have hsettled := hseg.settled
  rw [hseg.tokens, rowLeaves, leaves, hP] at hsettled
  refine ⟨P.flatMap Token.text, ?_, hstart, neutral_prefixes hsettled.right.left.left.left hall⟩
  rw [Form.text, hP, List.flatMap_append]
  rfl

/-- A collection takes in the form of its container `b` after it. -/
theorem Encloses.slurp_forward {b : Form} {L' R' : List Token} {row : List Tree}
    (h : f.Encloses cs L o es c R) (hb : b.Contains cs L' row R') (hread : Reads [] cs [])
    {pre : List Char} (htext : f.outermost.text = pre ++ f.text)
    (hstart : f.start = f.outermost.start + pre.length) (hpre : Neutral .code pre)
    (hf : f.outermost ∈ b.forms) (hg : g ∈ b.forms) (hlt : f.outermost.start < g.start) :
    Reforms cs (Document.adopt f g false) := by
  obtain ⟨before, mid, after, hcs, hfstart, hgstart, ⟨awaited, hbefore⟩, hold, hmid, hgn⟩ :=
    hb.exists_pair hf hg hlt
  have hrow := h.inner.neutral h.stops_end
  have hnew : Neutral .code
      (pre ++ (f.opening ++ ((rowText es ++ (mid ++ g.text)) ++ f.closing))) :=
    hpre.append ((hrow.append (hmid.append hgn)).delimit h.isCollection)
  -- the closer moves over `mid` and `g`; the prefixes stay where they are
  rw [htext, h.form_text_eq] at hcs hgstart
  refine Reforms.replace after hread ?_ hbefore (hold.append (hmid.append hgn)) hnew ?_
  · rw [hcs, htext, h.form_text_eq]
    simp
  · refine .deletion (before ++ (pre ++ (f.opening ++ rowText es))) f.closing
      (mid ++ (g.text ++ after)) (by rw [hcs]; simp) ?_ rfl ?_
    · rw [stop_eq_start_add, hstart, hfstart, h.form_text_eq]
      simp only [List.length_append]
      omega
    refine .insertion (before ++ (pre ++ (f.opening ++ (rowText es ++ (mid ++ g.text))))) after
      (by simp) ?_ ?_
    · rw [stop_eq_start_add, hgstart]
      simp only [List.length_append]
      omega
    simpa using Makes.nil _

/-- A collection takes in the form of its container `b` before it. -/
theorem Encloses.slurp_backward {b : Form} {L' R' : List Token} {row : List Tree}
    (h : f.Encloses cs L o es c R) (hb : b.Contains cs L' row R') (hread : Reads [] cs [])
    {pre : List Char} (htext : f.outermost.text = pre ++ f.text)
    (hstart : f.start = f.outermost.start + pre.length) (hpre : Neutral .code pre)
    (hf : f.outermost ∈ b.forms) (hg : g ∈ b.forms) (hlt : g.start < f.outermost.start) :
    Reforms cs (Document.adopt f g true) := by
  obtain ⟨before, mid, after, hcs, hgstart, hfstart, ⟨awaited, hbefore⟩, hgn, hmid, hold⟩ :=
    hb.exists_pair hg hf hlt
  have hrow := h.inner.neutral h.stops_end
  -- the opener moves to before `g`, and so the prefixes come to stand inside
  have hnew : Neutral .code
      (f.opening ++ ((g.text ++ (mid ++ (pre ++ rowText es))) ++ f.closing)) :=
    (hgn.append (hmid.append (hpre.append hrow))).delimit h.isCollection
  refine Reforms.replace after hread ?_ hbefore (hgn.append (hmid.append hold)) hnew ?_
  · rw [hcs]
    simp
  · refine .deletion (before ++ (g.text ++ (mid ++ pre))) f.opening
      (rowText es ++ (f.closing ++ after)) ?_ ?_ rfl ?_
    · rw [hcs, htext, h.form_text_eq]
      simp
    · rw [hstart, hfstart]
      simp only [List.length_append]
      omega
    refine .insertion before (g.text ++ (mid ++ (pre ++ (rowText es ++ (f.closing ++ after)))))
      (by simp) hgstart ?_
    simpa using Makes.nil _

end Form

/-! ### The edits of a document -/

namespace Document

open Form

variable {cs : List Char} {ts : List Tree} {offset : Nat} {r : Edit}

theorem placed_of_innermost? (h : Laid cs ts) {f : Form}
    (hf : (ofText cs).innermost? offset = some f) :
    Placed (.node .root ts) f ∧ f.isCollection ∧ f.innerStart ≤ offset ∧ offset ≤ f.innerStop := by
  obtain ⟨hmem, hkind⟩ := List.mem_filter.mp (List.mem_of_getLast? hf)
  simp only [Bool.and_eq_true, holds, decide_eq_true_eq] at hkind
  refine ⟨?_, hkind.1, hkind.2⟩
  rw [← h.parse]
  exact placed_of_mem_within hmem

theorem slurp?_reforms (h : Laid cs ts) (hread : Reads [] cs []) {backward : Bool}
    (hr : (ofText cs).slurp? offset backward = some r) : Reforms cs r.changes := by
  obtain ⟨f, hf, hfr⟩ := List.exists_of_findSome?_eq_some hr
  have hplaced : Placed (.node .root ts) f ∧ f.isCollection := by
    unfold outward at hf
    split at hf
    · cases hf
    · rename_i f' hf'
      obtain ⟨hplaced, hk, -⟩ := placed_of_innermost? h hf'
      rcases List.mem_cons.mp hf with rfl | hf
      · exact ⟨hplaced, hk⟩
      · exact hplaced.mem_collectionsOf f hf
  obtain ⟨hplaced, hk⟩ := hplaced
  obtain ⟨L, o, es, c, R, henc⟩ := hplaced.exists_encloses h hk
  obtain ⟨pre, htext, hstart, hpre⟩ := hplaced.exists_prefixes h hk
  rw [if_pos henc.isClosed] at hfr
  obtain ⟨g, hg, rfl⟩ := Option.map_eq_some_iff.mp hfr
  cases backward with
  | false =>
    obtain ⟨b, hb, hg⟩ := Option.bind_eq_some_iff.mp (hg : f.next? = some g)
    obtain ⟨hmem, L', row, R', hcontains⟩ := hplaced.exists_contains h hk hb
    have hlt : f.outermost.start < g.start := by simpa using List.find?_some hg
    have hgmem := List.mem_of_find?_eq_some hg
    exact henc.slurp_forward hcontains hread htext hstart hpre hmem hgmem hlt
  | true =>
    obtain ⟨b, hb, hg⟩ := Option.bind_eq_some_iff.mp (hg : f.prev? = some g)
    obtain ⟨hmem, L', row, R', hcontains⟩ := hplaced.exists_contains h hk hb
    obtain ⟨hgmem, hlt⟩ := List.mem_filter.mp (List.mem_of_getLast? hg)
    have hlt : g.start < f.outermost.start := by simpa using hlt
    exact henc.slurp_backward hcontains hread htext hstart hpre hmem hgmem hlt

theorem barf?_reforms (h : Laid cs ts) (hread : Reads [] cs []) {backward : Bool}
    (hr : (ofText cs).barf? offset backward = some r) : Reforms cs r.changes := by
  unfold barf? at hr
  split at hr
  · cases hr
  · rename_i f hf
    obtain ⟨hplaced, hk, -⟩ := placed_of_innermost? h hf
    obtain ⟨L, o, es, c, R, henc⟩ := hplaced.exists_encloses h hk
    simp only [henc.isClosed, Bool.not_true, Bool.false_or] at hr
    split at hr
    · cases hr
    · cases backward with
      | true =>
        obtain rfl := Option.some.inj hr
        have hcut : ∃ p q, Cut (L ++ [o]) es
            (match f.forms[1]? with
              | some g => g.start
              | none => f.innerStop) p q := by
          split
          · rename_i g hg
            exact henc.contains.exists_cut_before (List.mem_of_getElem? hg)
          · exact ⟨_, _, henc.cut_end⟩
        obtain ⟨p, q, hcut⟩ := hcut
        exact henc.barf_backward hread hcut
      | false =>
        obtain rfl := Option.some.inj hr
        have hcut : ∃ p q, Cut (L ++ [o]) es
            (match f.forms.dropLast.getLast? with
              | some g => g.stop
              | none => f.innerStart) p q := by
          split
          · rename_i g hg
            have hmem := (List.dropLast_sublist _).subset (List.mem_of_getLast? hg)
            exact henc.contains.exists_cut_after hmem
          · exact ⟨_, _, henc.cut_start⟩
        obtain ⟨p, q, hcut⟩ := hcut
        exact henc.barf_forward hread hcut

theorem splice?_reforms (h : Laid cs ts) (hread : Reads [] cs [])
    (hr : (ofText cs).splice? offset = some r) : Reforms cs r.changes := by
  obtain ⟨f, hf, rfl⟩ := Option.map_eq_some_iff.mp hr
  obtain ⟨hplaced, hk, -⟩ := placed_of_innermost? h hf
  obtain ⟨L, o, es, c, R, henc⟩ := hplaced.exists_encloses h hk
  exact henc.splice hread

theorem split?_reforms (h : Laid cs ts) (hread : Reads [] cs [])
    (hr : (ofText cs).split? offset = some r) : Reforms cs r.changes := by
  unfold split? at hr
  split at hr
  · cases hr
  · rename_i f hf
    obtain ⟨hplaced, hk, hlo, hhi⟩ := placed_of_innermost? h hf
    obtain ⟨L, o, es, c, R, henc⟩ := hplaced.exists_encloses h hk
    simp only [henc.isClosed, Bool.not_true, Bool.false_eq_true, if_false, Option.some.injEq] at hr
    rw [← hr]
    refine henc.split_at hread ?_
    -- inside an atom the cut is at its end, which is still inside the collection
    split
    · rename_i g hg
      obtain ⟨i, -, hg⟩ := Option.bind_eq_some_iff.mp hg
      obtain ⟨p, q, hcut⟩ := henc.contains.exists_cut_after (List.mem_of_getElem? hg)
      rw [henc.innerStop_eq, henc.innerStart_eq]
      exact hcut.le
    · exact ⟨hlo, hhi⟩

/-- The `container` at an offset, and where its inside starts and ends. -/
theorem exists_container_contains (h : Laid cs ts) (hoffset : offset ≤ cs.length) :
    ∃ L es R, ((ofText cs).container offset).Contains cs L es R ∧
      (L.flatMap Token.text).length ≤ offset ∧
      offset ≤ (L.flatMap Token.text).length + rowWidth es := by
  cases hf : (ofText cs).innermost? offset with
  | none =>
    rw [container, hf, Option.getD_none, root_eq_ofNode h]
    refine ⟨[], ts, [], contains_root h, Nat.zero_le _, ?_⟩
    have hlen := congrArg List.length h.segment.text_eq
    rw [rowText, List.flatMap_nil, List.append_nil, List.nil_append, ← rowWidth_eq] at hlen
    rw [List.flatMap_nil, List.length_nil, Nat.zero_add, ← hlen]
    exact hoffset
  | some f =>
    obtain ⟨hplaced, hk, hlo, hhi⟩ := placed_of_innermost? h hf
    obtain ⟨L, o, es, c, R, henc⟩ := hplaced.exists_encloses h hk
    rw [container, hf, Option.getD_some]
    rw [henc.innerStop_eq, henc.innerStart_eq] at hhi
    rw [henc.innerStart_eq] at hlo
    exact ⟨_, _, _, henc.contains, hlo, hhi⟩

theorem wrap?_reforms (h : Laid cs ts) (hread : Reads [] cs []) (hoffset : offset ≤ cs.length)
    {o : Edit.Options} (ho : o.otherEnd = none) (hr : (ofText cs).wrap? offset o = some r) :
    Reforms cs r.changes := by
  obtain ⟨L, es, R, hcontains, hlo, hhi⟩ := exists_container_contains h hoffset
  have hregion : o.region? offset = none := by rw [Edit.Options.region?, ho]
  have hkind : (o.delimiters.getD .parens).kind.isCollection := by
    cases o.delimiters.getD .parens <;> rfl
  unfold wrap? at hr
  simp only [hregion] at hr
  split at hr
  · rename_i f hf
    obtain rfl := Option.some.inj hr
    refine hcontains.wrap hread ?_ hkind
    split at hf
    · rename_i g hg
      obtain rfl := Option.some.inj hf
      exact List.mem_of_find?_eq_some hg
    · exact List.mem_of_find?_eq_some hf
  · rename_i hf
    obtain rfl := Option.some.inj hr
    refine hcontains.wrap_nothing hread ?_ hlo hhi hkind
    -- no form is at the offset and none comes after it, so all of them stop before it
    intro g hg
    split at hf
    · cases hf
    · rename_i hnone
      have hover := List.find?_eq_none.mp hnone g hg
      have hafter := List.find?_eq_none.mp hf g hg
      simp only [Bool.and_eq_true, decide_eq_true_eq, not_and, not_lt, not_le] at hover hafter
      exact hover (Nat.le_of_lt hafter)

/-- The two forms that `neighbours?` finds stand in the container in the order of the text. -/
theorem lt_of_neighbours? {b f g : Form} {L R : List Token} {es : List Tree}
    (h : b.Contains cs L es R) (hn : neighbours? b.forms offset = some (f, g)) :
    f ∈ b.forms ∧ g ∈ b.forms ∧ f.start < g.start := by
  unfold neighbours? at hn
  split at hn
  · rename_i i hi
    split at hn
    · rename_i f' g' hf hg
      obtain ⟨rfl, rfl⟩ := Prod.mk.inj (Option.some.inj hn)
      refine ⟨List.mem_of_getElem? hf, List.mem_of_getElem? hg, ?_⟩
      have hsorted : b.forms.Pairwise fun f g => f.start < g.start := by
        rw [h.forms]
        exact pairwise_inRow fun e he => h.segment.width_pos he
      obtain ⟨hi, rfl⟩ := List.getElem?_eq_some_iff.mp hf
      obtain ⟨hj, rfl⟩ := List.getElem?_eq_some_iff.mp hg
      exact List.pairwise_iff_getElem.mp hsorted i (i + 1) hi hj (Nat.lt_succ_self i)
    · cases hn
  · split at hn
    · rename_i f' g' hf hg
      obtain ⟨rfl, rfl⟩ := Prod.mk.inj (Option.some.inj hn)
      obtain ⟨hfmem, hle⟩ := List.mem_filter.mp (List.mem_of_getLast? hf)
      have hge := List.find?_some hg
      simp only [decide_eq_true_eq] at hle hge
      refine ⟨hfmem, List.mem_of_find?_eq_some hg, ?_⟩
      -- the first of them has characters, so it starts before it stops
      obtain ⟨x, y, hes, -⟩ := h.exists_split hfmem
      have hpos : 0 < rowWidth f'.children :=
        h.segment.width_pos (e := .node f'.kind f'.children) (by simp [hes])
      have hstop : f'.stop = f'.start + rowWidth f'.children := f'.stop_eq
      omega
    · cases hn

theorem transpose?_reforms (h : Laid cs ts) (hread : Reads [] cs []) (hoffset : offset ≤ cs.length)
    (hr : (ofText cs).transpose? offset = some r) : Reforms cs r.changes := by
  obtain ⟨L, es, R, hcontains, -, -⟩ := exists_container_contains h hoffset
  obtain ⟨⟨f, g⟩, hn, rfl⟩ := Option.map_eq_some_iff.mp hr
  obtain ⟨hf, hg, hlt⟩ := lt_of_neighbours? hcontains hn
  exact hcontains.transpose hread hf hg hlt

end Document

namespace StructuralEdit

/-- The edits that move delimiters and forms. -/
def reshapes : StructuralEdit → Bool
  | slurp _ | barf _ | splice | split | wrap _ | transpose => true
  | kill _ | spliceKill _ | delete _ => false

theorem edit?_reforms {cs : List Char} {ts : List Tree} (h : Laid cs ts) (hread : Reads [] cs [])
    {e : StructuralEdit} (he : e.reshapes) {offset : Nat} (hoffset : offset ≤ cs.length)
    {o : Edit.Options} (ho : o.otherEnd = none) {r : Edit}
    (hr : e.edit? (.ofText cs) offset o = some r) : Reforms cs r.changes := by
  cases e with
  | slurp => exact Document.slurp?_reforms h hread hr
  | barf => exact Document.barf?_reforms h hread hr
  | splice => exact Document.splice?_reforms h hread hr
  | split => exact Document.split?_reforms h hread hr
  | wrap => exact Document.wrap?_reforms h hread hoffset ho hr
  | transpose => exact Document.transpose?_reforms h hread hoffset hr
  | kill | spliceKill | delete => cases he

/-- **Reshaping keeps a text balanced.**  In a balanced text without loose backslashes, slurping,
barfing, splicing, splitting, wrapping and transposing, wherever they apply, give changes that can
all be made, in order, and the text is balanced after them and still has no loose backslash. -/
theorem reshape_keeps_balance {cs : List Char} (hbalanced : Text.Balanced cs)
    (hback : Text.NoLooseBackslash cs) {e : StructuralEdit} (he : e.reshapes) {offset : Nat}
    (hoffset : offset ≤ cs.length) {o : Edit.Options} (ho : o.otherEnd = none) {r : Edit}
    (hr : e.edit? (.ofText cs) offset o = some r) (language : String) :
    ∃ commands host, Change.commands r.changes = .ok commands ∧
      (Host.ofBuffer (.ofText language cs)).applyAll commands = (.ok true, host) ∧
      Text.Balanced host.text ∧ Text.NoLooseBackslash host.text := by
  obtain ⟨ts, hlaid⟩ := hbalanced.exists_laid hback
  have hread := (Text.balanced_iff_reads cs).mp ⟨hbalanced, hback⟩
  obtain ⟨out, ⟨commands, hcommands, hsplice⟩, hout⟩ := edit?_reforms hlaid hread he hoffset ho hr
  obtain ⟨host, hrun, rfl⟩ :=
    Host.applyAll_of_spliceAll? (h := Host.ofBuffer (.ofText language cs)) ⟨rfl, rfl⟩ hsplice
  exact ⟨commands, host, hcommands, hrun, (Text.balanced_iff_reads _).mpr hout⟩

/-- A collection with a prefix takes in the form before it, over a comment and a string that hold
delimiters. -/
theorem reshape_keeps_balance_quoted :
    let cs := ['(', '"', ')', '"', ';', '[', '\n', '\'', '(', 'a', ')', ')']
    let o : Edit.Options := { backward := true }
    let r : Edit := ⟨[.deletion 8 1, .insertion 1 ['(']], 9⟩
    Text.Balanced cs ∧ Text.NoLooseBackslash cs ∧ (slurp true).reshapes ∧ 9 ≤ cs.length ∧
      o.otherEnd = none ∧ (slurp true).edit? (.ofText cs) 9 o = some r ∧
      ∃ commands host, Change.commands r.changes = .ok commands ∧
        (Host.ofBuffer (.ofText "clojure" cs)).applyAll commands = (.ok true, host) ∧
        Text.Balanced host.text ∧ Text.NoLooseBackslash host.text := by
  intro cs o r
  have hbalanced : Text.Balanced cs := by decide +kernel
  have hback : Text.NoLooseBackslash cs := by decide +kernel
  have hr : (slurp true).edit? (.ofText cs) 9 o = some r := by decide +kernel
  exact ⟨hbalanced, hback, rfl, by decide, rfl, hr,
    reshape_keeps_balance hbalanced hback rfl (by decide) rfl hr "clojure"⟩

end StructuralEdit

end SexpEdit
