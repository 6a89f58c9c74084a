/-
Wrapping and splicing.

Wrapping a form puts delimiters around it and the caret behind the opener.  The delimiters are
tokens of their own, the tokens around them stay, and the tree that is read from the new text has a
new collection in the place of the form, with the form inside it.  At the caret that collection is
the innermost one, so splicing there takes away the delimiters that wrapping put in.

* `Form.Placed.nodes_split` — a node, those inside it, and those after it, in the order of the text;
* `Form.Placed.innermost?_of_holds` — when a collection is the innermost one at an offset;
* `Form.Placed.exists_wrapped` — the text with delimiters around a form, and the tree read from it;
* `Document.splice_undoes_wrap` — splicing at the caret that wrapping leaves gives back the text.
-/
import SexpEdit.Proofs.Boundary
import SexpEdit.Proofs.Grafting
import SexpEdit.Proofs.Holding
import SexpEdit.Proofs.Splicing

namespace SexpEdit

open SexpEdit.Tree Grammar
open Token (scan widthOf)

namespace Form

/-! ### The innermost collection -/

mutual

theorem start_le_of_mem_within : ∀ {t : Tree} {around : List Site} {start : Nat} {f : Form},
    f ∈ within around start t → start ≤ f.start
  | .leaf _, _, _, _, h => absurd h List.not_mem_nil
  | .node k ts, around, start, f, h => by
    rw [within] at h
    rcases List.mem_cons.mp h with rfl | h
    · exact Nat.le_refl start
    · exact start_le_of_mem_rowWithin h

theorem start_le_of_mem_rowWithin : ∀ {ts : List Tree} {around : List Site} {start : Nat}
    {f : Form}, f ∈ rowWithin around start ts → start ≤ f.start
  | [], _, _, _, h => absurd h List.not_mem_nil
  | t :: ts, around, start, f, h => by
    rw [rowWithin] at h
    rcases List.mem_append.mp h with h | h
    · exact start_le_of_mem_within h
    · have hle := start_le_of_mem_rowWithin h
      omega

end

/-- The nodes of a document are those before a `Placed` node, those in it, and those after it. -/
theorem Placed.nodes_split {root : Tree} {f : Form} (h : Placed root f) :
    ∃ xs ys, within [] 0 root =
        xs ++ (f :: (rowWithin (f.toSite :: f.around) f.start f.children ++ ys)) ∧
      ∀ g ∈ ys, f.stop ≤ g.start := by
  induction h with
  | @root k ts hroot =>
    refine ⟨[], [], ?_, by simp⟩
    rw [hroot, within, List.append_nil]
    rfl
  | @child p k us pre post _ hsplit ih =>
    obtain ⟨xs, ys, hnodes, hafter⟩ := ih
    have hstop : p.stop = p.start + rowWidth pre + rowWidth us + rowWidth post := by
      rw [p.stop_eq, hsplit, rowWidth_append, rowWidth, width]
      omega
    refine ⟨xs ++ p :: rowWithin (p.toSite :: p.around) p.start pre,
      rowWithin (p.toSite :: p.around) (p.start + rowWidth pre + rowWidth us) post ++ ys, ?_, ?_⟩
    · rw [hnodes, hsplit, rowWithin_append, rowWithin, within, width]
      simp only [List.append_assoc, List.cons_append]
      rfl
    · intro g hg
      show p.start + rowWidth pre + rowWidth us ≤ g.start
      rcases List.mem_append.mp hg with hg | hg
      · exact start_le_of_mem_rowWithin hg
      · have hle := hafter g hg
        omega

/-- **A collection that `holds` an offset is the innermost one**, if no collection inside it
does. -/
theorem Placed.innermost?_of_holds {d : Document} {f : Form} {offset : Nat} (h : Placed d.tree f)
    (hk : f.isCollection) (hholds : f.holds offset)
    (hinside : ∀ g ∈ rowWithin (f.toSite :: f.around) f.start f.children, g.isCollection →
      ¬g.holds offset) : d.innermost? offset = some f := by
  obtain ⟨xs, ys, hnodes, hafter⟩ := h.nodes_split
  have hself : f.isCollection && f.holds offset := by
    rw [hk, hholds]
    rfl
  have hnone : (rowWithin (f.toSite :: f.around) f.start f.children ++ ys).filter
      (fun g => g.isCollection && g.holds offset) = [] := by
    refine List.filter_eq_nil_iff.mpr ?_
    intro g hg hboth
    rw [Bool.and_eq_true] at hboth
    rcases List.mem_append.mp hg with hin | hout
    · exact hinside g hin hboth.1 hboth.2
    · have hmem : g ∈ d.nodes := by
        rw [d.nodes_eq, hnodes]
        simp [hout]
      have hbounds := ((Document.placed_of_mem_nodes hmem).framed hboth.1).bounds_of_holds hboth.2
      have hself := (h.framed hk).bounds_of_holds hholds
      have hstop := (h.framed hk).inner_bounds
      have hle := hafter g hout
      omega
  rw [Document.innermost?, d.nodes_eq, hnodes, List.filter_append, List.filter_cons, if_pos hself,
    hnone, List.getLast?_concat]

/-- Behind its opener, at `innerStart`, a collection is the innermost one. -/
theorem Placed.innermost?_innerStart {d : Document} {f : Form} (h : Placed d.tree f)
    (hk : f.isCollection) : d.innermost? f.innerStart = some f := by
  have hframed := h.framed hk
  obtain ⟨o, es, hchildren, -, ho, -⟩ := h.exists_delimiters hk
  obtain ⟨xs, ys, hnodes, -⟩ := h.nodes_split
  refine h.innermost?_of_holds hk ?_ fun g hg hcollection hholds => ?_
  · have hbounds := hframed.inner_bounds
    rw [holds, hframed.innerStart_eq]
    simp [hbounds.1]
  · -- every node inside it starts behind its opener, and so does not hold that offset
    have hmem : g ∈ d.nodes := by
      rw [d.nodes_eq, hnodes]
      simp [hg]
    have hbounds := ((Document.placed_of_mem_nodes hmem).framed hcollection).bounds_of_holds hholds
    rw [hchildren, rowWithin, within, width, ho, List.nil_append] at hg
    have hle := start_le_of_mem_rowWithin hg
    rw [hframed.innerStart_eq] at hbounds
    omega

end Form

/-! ### A form in delimiters -/

/-- The tokens before a form do not end with a comment: the line of a comment ends before the form
starts. -/
theorem Grammar.IsForm.before_ne_comment {cs : List Char} {L R rest : List Token} {t : Tree}
    (h : IsForm rest t) (hscan : scan cs = L ++ (t.leaves ++ R)) :
    ∀ u, L.getLast? = some u → u.kind ≠ .comment := by
  intro u hu hcomment
  have hstarts := h.startsForm R
  have hchain := Token.isChain_scan cs
  rw [hscan] at hchain
  cases hafter : t.leaves ++ R with
  | nil =>
    rw [hafter] at hstarts
    exact hstarts.elim
  | cons v vs =>
    rw [hafter] at hstarts hchain hscan
    have hfollows : Token.Follows u v := (List.isChain_append.mp hchain).2.2 u hu v rfl
    have hspelled : Token.Spelled v.kind v.text :=
      Token.spelled_of_mem_scan (by rw [hscan]; simp)
    exact hspelled.not_startsLineEnd hstarts.1 (hfollows hcomment)

/-- A form that is `Whole` does not end with a comment. -/
theorem Grammar.IsForm.last_ne_comment {rest : List Token} {k : Kind} {us : List Tree}
    (h : IsForm rest (.node k us)) (hwhole : Whole (.node k us)) :
    ∀ u, (rowLeaves us).getLast? = some u → u.kind ≠ .comment := by
  intro u hu
  obtain ⟨ts, v, hts, hv⟩ := h.exists_last hwhole
  have hts : rowLeaves us = ts ++ [v] := hts
  rw [hts, List.getLast?_concat] at hu
  rw [← Option.some.inj hu]
  exact hv

/-- A text with the tokens of an `IsDocument` is read into that document. -/
theorem Document.tree_ofText {root : Tree} (hroot : IsDocument root) {cs : List Char}
    (hscan : scan cs = root.leaves) : (ofText cs).tree = root := by
  show Tree.read (scan cs) = root
  rw [hscan, Grammar.read_leaves hroot]

/-- The tokens of a pair of delimiters, each with its `glyph?`. -/
theorem Delimiters.exists_glyphs (p : Delimiters) :
    ∃ (j k : Kind) (o c : Char), j.glyph? = some o ∧ k.glyph? = some c ∧
      j.collection? = some p.kind ∧ p.kind.ending? = some k ∧ p.opening = [o] ∧
      p.closing = [c] := by
  cases p with
  | parens => exact ⟨.lparen, .rparen, '(', ')', rfl, rfl, rfl, rfl, rfl, rfl⟩
  | square => exact ⟨.lbracket, .rbracket, '[', ']', rfl, rfl, rfl, rfl, rfl, rfl⟩
  | curly => exact ⟨.lbrace, .rbrace, '\x7b', '\x7d', rfl, rfl, rfl, rfl, rfl, rfl⟩

/-- **A form in delimiters is a collection.**  The text with delimiters around a form has a closed
collection there, if no string lacks its quote, no backslash waits for a character, and every
collection in the form is closed. -/
theorem Form.Placed.exists_wrapped {d : Document} {f : Form} (h : Placed d.tree f)
    (hk : f.kind.isForm) (hwhole : Whole (.node f.kind f.children))
    (hterm : ∀ t ∈ scan d.text, t.kind ≠ .unterminatedString ∧ t ≠ Token.backslash)
    (p : Delimiters) :
    ∃ before after g, d.text = before ++ (f.text ++ after) ∧ f.start = before.length ∧
      Placed (Document.ofText (before ++ (p.opening ++ (f.text ++ (p.closing ++ after))))).tree g ∧
      g.kind = p.kind ∧ g.isClosed ∧ g.start = f.start ∧
      g.text = p.opening ++ (f.text ++ p.closing) := by
  obtain ⟨j, k, o, c, ho, hc, hopen, hclose, hopening, hclosing⟩ := p.exists_glyphs
  obtain ⟨rest, -, hform⟩ := h.exists_isForm hk
  have hyields : Yields (.node f.kind f.children)
      (.node p.kind [.leaf ⟨j, [o]⟩, .node f.kind f.children, .leaf ⟨k, [c]⟩]) :=
    yields_delimited hopen hclose hwhole hk
  obtain ⟨root, around, L, R, hroot, hplaced, hleaves, hstart, hleaves'⟩ :=
    h.graft d.exists_row hyields
  rw [d.leaves_tree] at hleaves
  have hscan := Token.scan_delimited hleaves hterm (hform.before_ne_comment hleaves)
    (hform.last_ne_comment hwhole) ho hc
  -- the tokens of the new text are those of the document with the new collection in it
  have hread : (Document.ofText (L.flatMap Token.text ++
      o :: (f.text ++ c :: R.flatMap Token.text))).tree = root := by
    refine Document.tree_ofText hroot (hscan.trans ?_)
    rw [hleaves']
    simp [rowLeaves, leaves]
  have hgclosed := @isClosed_ofNode ⟨j, [o]⟩ ⟨k, [c]⟩ p.kind [.node f.kind f.children] hopen hclose
  refine ⟨L.flatMap Token.text, R.flatMap Token.text,
    ofNode p.kind f.start [.leaf ⟨j, [o]⟩, .node f.kind f.children, .leaf ⟨k, [c]⟩] around,
    ?_, hstart, ?_, rfl, hgclosed, rfl, ?_⟩
  · rw [← Token.scan_text d.text, hleaves, List.flatMap_append, List.flatMap_append]
    rfl
  · rw [hopening, hclosing]
    show Placed (Document.ofText (L.flatMap Token.text ++
      o :: (f.text ++ c :: R.flatMap Token.text))).tree _
    rw [hread]
    exact hplaced
  · rw [hopening, hclosing]
    show (rowLeaves [.leaf ⟨j, [o]⟩, .node f.kind f.children, .leaf ⟨k, [c]⟩]).flatMap Token.text =
      [o] ++ ((rowLeaves f.children).flatMap Token.text ++ [c])
    simp [rowLeaves, leaves]

namespace Makes

variable (before text after opening closing : List Char)

/-- The delimiters `opening` and `closing` are put in around a text, the closing one first. -/
theorem delimited : Makes (before ++ (text ++ after))
    [.insertion (before.length + text.length) closing, .insertion before.length opening]
    (before ++ (opening ++ (text ++ (closing ++ after)))) := by
  have hlength : before.length + text.length = (before ++ text).length := by simp
  refine .insertion (before ++ text) after (by simp) hlength ?_
  refine .insertion before (text ++ (closing ++ after)) (by simp) rfl ?_
  exact .nil _

/-- The delimiters `opening` and `closing` are taken away from around a text, the closing one
first. -/
theorem undelimited : Makes (before ++ (opening ++ (text ++ (closing ++ after))))
    [.deletion (before.length + (opening.length + text.length)) closing.length,
      .deletion before.length opening.length]
    (before ++ (text ++ after)) := by
  have hlength : before.length + (opening.length + text.length) =
      (before ++ (opening ++ text)).length := by simp
  refine .deletion (before ++ (opening ++ text)) closing after (by simp) hlength rfl ?_
  refine .deletion before opening (text ++ after) (by simp) rfl rfl ?_
  exact .nil _

end Makes

namespace Document

/-- The form that wrapping without a selection puts delimiters around: the one at the offset, or the
next one. -/
def wrapTarget? (d : Document) (offset : Nat) : Option Form :=
  match (d.container offset).forms.find? fun f => f.start ≤ offset && offset < f.stop with
  | some f => some f
  | none => Form.firstAfter? (d.container offset).forms offset

variable {d : Document} {offset : Nat} {o : Edit.Options} {f : Form}

theorem mem_of_wrapTarget? (h : d.wrapTarget? offset = some f) :
    f ∈ (d.container offset).forms := by
  unfold wrapTarget? at h
  split at h
  · rename_i g hg
    obtain rfl := Option.some.inj h
    exact List.mem_of_find?_eq_some hg
  · exact List.mem_of_find?_eq_some h

theorem wrap?_of_wrapTarget? (ho : o.otherEnd = none) (h : d.wrapTarget? offset = some f) :
    d.wrap? offset o =
      some ⟨[.insertion f.stop (o.delimiters.getD .parens).closing,
          .insertion f.start (o.delimiters.getD .parens).opening],
        f.start + (o.delimiters.getD .parens).opening.length⟩ := by
  have hregion : o.region? offset = none := by rw [Edit.Options.region?, ho]
  unfold wrapTarget? at h
  unfold wrap?
  cases hfind : (d.container offset).forms.find? fun f => f.start ≤ offset && offset < f.stop with
  | some g =>
    rw [hfind] at h
    obtain rfl := Option.some.inj h
    simp only [hregion, hfind]
  | none =>
    rw [hfind] at h
    simp only [hregion, hfind, h]

/-- A `splice?` behind the opener of a closed collection takes away its delimiters. -/
theorem splice?_innerStart (h : Form.Placed d.tree f) (hk : f.isCollection) (hclosed : f.isClosed) :
    d.splice? f.innerStart =
      some ⟨[.deletion f.innerStop f.closing.length, .deletion f.start f.opening.length],
        f.start⟩ := by
  have hcaret : f.innerStart - f.opening.length = f.start := by rw [Form.innerStart]; omega
  rw [splice?, h.innermost?_innerStart hk, Option.map_some, uncloseChanges, if_pos hclosed, hcaret]
  rfl

/-- **Splicing undoes wrapping.**  Wrapping puts delimiters around its form, and splicing at the
caret that it leaves takes them away again.  No string may lack its quote, no backslash may wait for
a character, and in the form every collection has to be closed.  Of the rest of the text nothing is
asked: it may have stray closers, and collections that it ends in. -/
theorem splice_undoes_wrap
    (hterm : ∀ t ∈ scan d.text, t.kind ≠ .unterminatedString ∧ t ≠ Token.backslash)
    (ho : o.otherEnd = none) (htarget : d.wrapTarget? offset = some f)
    (hclosed : ∀ g ∈ Form.within f.around f.start (.node f.kind f.children),
      g.isCollection → g.isClosed) :
    ∃ w wrapped s, d.wrap? offset o = some w ∧ Makes d.text w.changes wrapped ∧
      wrapped = d.text.take f.start ++ ((o.delimiters.getD .parens).opening ++ (f.text ++
        ((o.delimiters.getD .parens).closing ++ d.text.drop f.stop))) ∧
      (ofText wrapped).splice? w.caret = some s ∧ Makes wrapped s.changes d.text := by
  have hmem := mem_of_wrapTarget? htarget
  have hk : f.kind.isForm := (List.mem_filter.mp hmem).2
  have hwhole : Whole (.node f.kind f.children) := by
    intro k ts hhas hcollection
    obtain ⟨g, hg, rfl, rfl⟩ := Form.exists_mem_within hhas f.around f.start
    exact hclosed g hg hcollection
  have hwrap := wrap?_of_wrapTarget? ho htarget
  generalize o.delimiters.getD .parens = p at hwrap ⊢
  obtain ⟨before, after, g, htext, hstart, hplaced, hkind, hgclosed, hgstart, hgtext⟩ :=
    (placed_of_mem_container hmem).exists_wrapped hk hwhole hterm p
  have hgcollection : g.isCollection := by
    rw [Form.isCollection, hkind]
    cases p <;> rfl
  have hsplice := splice?_innerStart hplaced hgcollection hgclosed
  -- both edits are about the same delimiters at the same offsets
  have hopening : g.opening = p.opening := congrArg Kind.opening hkind
  have hclosing : g.closing = p.closing := congrArg Kind.closing hkind
  have hcaret : g.innerStart = f.start + p.opening.length := by
    rw [Form.innerStart, hgstart, hopening]
  have hinnerStop : g.innerStop = before.length + (p.opening.length + f.text.length) := by
    rw [Form.innerStop, if_pos hgclosed, g.stop_eq_start_add, hgtext, hclosing, hgstart, hstart]
    simp only [List.length_append]
    omega
  rw [hcaret, hinnerStop, hopening, hclosing, hgstart, hstart] at hsplice
  rw [f.stop_eq_start_add, hstart] at hwrap
  have htake : d.text.take f.start = before := by rw [htext, hstart, List.take_left]
  have hdrop : d.text.drop f.stop = after := by
    rw [htext, f.stop_eq_start_add, hstart, ← List.length_append, ← List.append_assoc,
      List.drop_left]
  refine ⟨_, _, _, hwrap, ?_, ?_, hsplice, ?_⟩
  · rw [htext]
    exact .delimited before f.text after p.opening p.closing
  · rw [htake, hdrop]
  · rw [htext]
    exact .undelimited before f.text after p.opening p.closing

/-- A prefixed vector after a stray closer, in a list that the text ends in.  The vector has an
opener in a string, and its last form is a closer as a character literal. -/
theorem splice_undoes_wrap_prefixed :
    let d := ofText "(] #'[\"(\" \\)]".toList
    let o : Edit.Options := { delimiters := some .curly }
    (∀ t ∈ scan d.text, t.kind ≠ .unterminatedString ∧ t ≠ Token.backslash) ∧
      d.wrap? 4 o = some ⟨[.insertion 13 ['\x7d'], .insertion 3 ['\x7b']], 4⟩ ∧
      ∃ f, d.wrapTarget? 4 = some f ∧ f.start = 3 ∧
        (∀ g ∈ Form.within f.around f.start (.node f.kind f.children),
          g.isCollection → g.isClosed) ∧
        ∃ w wrapped s, d.wrap? 4 o = some w ∧ Makes d.text w.changes wrapped ∧
          wrapped = d.text.take f.start ++ (['\x7b'] ++ (f.text ++ (['\x7d'] ++
            d.text.drop f.stop))) ∧
          (ofText wrapped).splice? w.caret = some s ∧ Makes wrapped s.changes d.text := by
  intro d o
  have hterm : ∀ t ∈ scan d.text, t.kind ≠ .unterminatedString ∧ t ≠ Token.backslash := by
    decide +kernel
  have htarget : (d.wrapTarget? 4).any (fun f => f.start = 3 ∧
      ∀ g ∈ Form.within f.around f.start (.node f.kind f.children),
        g.isCollection → g.isClosed) := by
    decide +kernel
  have hwrap : d.wrap? 4 o = some ⟨[.insertion 13 ['\x7d'], .insertion 3 ['\x7b']], 4⟩ := by
    decide +kernel
  cases hf : d.wrapTarget? 4 with
  | none =>
    rw [hf] at htarget
    cases htarget
  | some f =>
    rw [hf] at htarget
    obtain ⟨hstart, hclosed⟩ := of_decide_eq_true htarget
    exact ⟨hterm, hwrap, f, rfl, hstart, hclosed, splice_undoes_wrap hterm rfl hf hclosed⟩

end Document

end SexpEdit
