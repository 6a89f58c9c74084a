/-
Cutting text out of a balanced text.

A cut is steady when what comes after it is read as before.  A steady cut keeps a text balanced when
the same closers are awaited at both its ends, and so they are at any two offsets inside a container
that no collection in it holds.

* `Text.Balanced.cut` — a steady cut between offsets where the same closers are awaited;
* `Form.Interior.cut` — a steady cut between level offsets of a container;
* `Document.exists_interior_container` — an offset is level in the container at it.
-/
import SexpEdit.Proofs.Holding
import SexpEdit.Proofs.Leaves
import SexpEdit.Proofs.Splicing

namespace SexpEdit

open SexpEdit.Tree Kind Text
open Token (scan widthOf)

/-! ### Steady changes -/

/-- Every deletion is `Steady` in the text that it is made in. -/
def Change.SteadyAll : List Char → List Change → Prop
  | _, [] => True
  | cs, c :: changes =>
    match c.payload with
    | .length n =>
      Steady cs c.start (c.start + n) ∧
        SteadyAll (cs.take c.start ++ cs.drop (c.start + n)) changes
    | .text new => SteadyAll (cs.take c.start ++ (new ++ cs.drop c.start)) changes

theorem Makes.cut {cs out : List Char} {s n : Nat} {changes : List Change}
    (hle : s + n ≤ cs.length) (h : Makes (cs.take s ++ cs.drop (s + n)) changes out) :
    Makes cs (.deletion s n :: changes) out := by
  have hsplit : cs = cs.take s ++ ((cs.drop s).take n ++ cs.drop (s + n)) := by
    rw [← List.drop_drop, List.take_append_drop, List.take_append_drop]
  refine .deletion (cs.take s) ((cs.drop s).take n) (cs.drop (s + n)) hsplit ?_ ?_ h
  · rw [List.length_take]
    omega
  · rw [List.length_take, List.length_drop]
    omega

/-- The changes can be made, and the text is `Balanced` after them. -/
def Text.StaysBalanced (cs : List Char) (changes : List Change) : Prop :=
  ∃ out, Makes cs changes out ∧ Balanced out

namespace Text

/-- The closers that are awaited at `offset`; `none` where the delimiters before it do not pair. -/
def awaitedUpto (cs : List Char) (offset : Nat) : Option (List Kind) :=
  pairAll [] (Mode.code.delimiters (cs.take offset))

/-- Up to its own end, `widthOf ts`, a row of tokens is complete. -/
theorem upto_widthOf {cs : List Char} {ts us : List Token} (h : scan cs = ts ++ us) :
    Token.Upto (widthOf ts) ts us := by
  refine ⟨Nat.le_refl _, fun u hu => ?_⟩
  have hmem : u ∈ scan cs := by
    rw [h]
    exact List.mem_append_right _ (List.mem_of_mem_head? hu)
  have hpos := List.length_pos_iff.mpr (Token.scan_text_ne_nil hmem)
  omega

theorem awaitedUpto_eq {cs : List Char} {ts us : List Token} {n : Nat} (hscan : scan cs = ts ++ us)
    (hupto : Token.Upto n ts us) : awaitedUpto cs n = pairAll [] (ts.map Token.kind) := by
  rw [awaitedUpto, delimiters_take hscan hupto.1 hupto.2, pairAll_delimiters]

theorem Balanced.pairAll_drop {cs : List Char} (h : Balanced cs) {n : Nat} {awaited : List Kind}
    (hn : awaitedUpto cs n = some awaited) :
    pairAll awaited ((Mode.code.after (cs.take n)).delimiters (cs.drop n)) = some [] := by
  have hpairs := ((balanced_iff_delimiters cs).mp h).2
  rw [← List.take_append_drop n cs, Mode.delimiters_append, pairAll_append] at hpairs
  rw [awaitedUpto] at hn
  rw [hn, Option.bind_some] at hpairs
  exact hpairs

/-- **A steady cut between offsets where the same closers are awaited keeps a text `Balanced`.** -/
theorem Balanced.cut {cs : List Char} (h : Balanced cs) {start stop : Nat} {awaited : List Kind}
    (hsteady : Steady cs start stop) (hstart : awaitedUpto cs start = some awaited)
    (hstop : awaitedUpto cs stop = some awaited) : Balanced (cs.take start ++ cs.drop stop) := by
  obtain ⟨hdelims, hstring⟩ := hsteady.cut
  refine (balanced_iff_delimiters _).mpr ⟨?_, ?_⟩
  · rw [hstring]
    exact ((balanced_iff_delimiters cs).mp h).1
  · rw [awaitedUpto] at hstart
    rw [hdelims, pairAll_append, hstart, Option.bind_some]
    exact h.pairAll_drop hstop

/-- One steady deletion between such offsets: the text `StaysBalanced`. -/
theorem Balanced.staysBalanced_cut {cs : List Char} (h : Balanced cs) {s n : Nat}
    {awaited : List Kind} (hle : s + n ≤ cs.length)
    (hsteady : Change.SteadyAll cs [.deletion s n])
    (hstart : awaitedUpto cs s = some awaited) (hstop : awaitedUpto cs (s + n) = some awaited) :
    StaysBalanced cs [.deletion s n] :=
  ⟨_, .cut hle (.nil _), h.cut hsteady.1 hstart hstop⟩

theorem Balanced.staysBalanced_nil {cs : List Char} (h : Balanced cs) : StaysBalanced cs [] :=
  ⟨cs, .nil cs, h⟩

end Text

/-! ### Inside a container -/

theorem Tree.Tidy.exists_of_atom {ts : List Tree} (h : Tidy (.node .atom ts)) :
    ∃ t, ts = [.leaf t] := by
  generalize hk : Kind.atom = k at h
  cases h with
  | @atom t => exact ⟨t, rfl⟩
  | @closed o c k es ho =>
    subst hk
    cases h : o.kind <;> rw [h] at ho <;> cases ho
  | prefixed | dangling => cases hk

namespace Form

/-- The row `es` is what stands inside a container of a balanced text, between the tokens `L` and
`R`. -/
structure Interior (cs : List Char) (b : Form) (L : List Token) (es : List Tree) (R : List Token) :
    Prop where
  tokens : scan cs = L ++ (rowLeaves es ++ R)
  innerStart : b.innerStart = widthOf L
  innerStop : b.innerStop = b.innerStart + rowWidth es
  tidy : ∀ e ∈ es, Tidy e
  each : ∀ e ∈ es, Tallies [e]
  forms : b.forms = inRow (b.toSite :: b.around) b.innerStart es

/-- An offset inside a container that no collection in it holds. -/
structure Level (b : Form) (es : List Tree) (offset : Nat) : Prop where
  ge : b.innerStart ≤ offset
  le : offset ≤ b.innerStop
  awaited : awaitedAt (rowWithin (b.toSite :: b.around) b.innerStart es) offset = []

namespace Interior

variable {cs : List Char} {b f : Form} {L R : List Token} {es : List Tree}

/-- The tokens of the row up to a `Level` offset pair among themselves. -/
theorem exists_upto (h : b.Interior cs L es R) {n : Nat} (hn : b.Level es n) :
    ∃ us vs, rowLeaves es = us ++ vs ∧ Token.Upto n (L ++ us) (vs ++ R) ∧
      ∀ awaited, pairAll awaited (us.map Token.kind) = some awaited := by
  have hge := hn.ge
  have hle := hn.le
  rw [h.innerStop] at hle
  have hstart := h.innerStart
  obtain ⟨us, vs, hsplit, hupto, hpairs⟩ :=
    (Tallies.of_forall h.each).awaits (b.toSite :: b.around) b.innerStart (n - b.innerStart)
      (by omega)
  have hoffset : b.innerStart + (n - b.innerStart) = n := by omega
  rw [hoffset, hn.awaited] at hpairs
  refine ⟨us, vs, hsplit, ⟨?_, ?_⟩, hpairs⟩
  · have hup := hupto.1
    rw [Token.widthOf_append]
    omega
  · intro v hv
    rw [Token.widthOf_append]
    cases vs with
    | nil =>
      -- the whole row is before the offset, and the next token has characters
      have hall : widthOf us = rowWidth es := by
        rw [rowWidth_eq_widthOf, hsplit, List.append_nil]
      have hmem : v ∈ scan cs := by
        rw [h.tokens]
        exact List.mem_append_right _ (List.mem_append_right _ (List.mem_of_mem_head? hv))
      have hpos := List.length_pos_iff.mpr (Token.scan_text_ne_nil hmem)
      omega
    | cons w vs =>
      have hlast := hupto.2 v hv
      omega

/-- The same closers are awaited at all `Level` offsets. -/
theorem awaitedUpto_level (h : b.Interior cs L es R) {n : Nat} (hn : b.Level es n) :
    awaitedUpto cs n = pairAll [] (L.map Token.kind) := by
  obtain ⟨us, vs, hsplit, hupto, hpairs⟩ := h.exists_upto hn
  have hscan : scan cs = (L ++ us) ++ (vs ++ R) := by
    rw [h.tokens, hsplit]
    simp only [List.append_assoc]
  rw [awaitedUpto_eq hscan hupto, List.map_append, pairAll_append]
  cases hL : pairAll [] (L.map Token.kind) with
  | none => rfl
  | some awaited => exact hpairs awaited

theorem exists_awaited (h : b.Interior cs L es R) (hcs : Balanced cs) :
    ∃ awaited, pairAll [] (L.map Token.kind) = some awaited := by
  have hpairs := hcs.pairAll_scan
  rw [h.tokens, List.map_append, pairAll_append] at hpairs
  obtain ⟨awaited, hawaited, -⟩ := Option.bind_eq_some_iff.mp hpairs
  exact ⟨awaited, hawaited⟩

theorem innerStop_le (h : b.Interior cs L es R) : b.innerStop ≤ cs.length := by
  have hwidth : widthOf (scan cs) = cs.length := by rw [widthOf, Token.scan_text]
  rw [h.tokens, Token.widthOf_append, Token.widthOf_append, ← rowWidth_eq_widthOf] at hwidth
  have hstart := h.innerStart
  have hstop := h.innerStop
  omega

/-- **A steady cut between `Level` offsets keeps a text balanced.** -/
theorem cut (h : b.Interior cs L es R) (hcs : Balanced cs) {s n : Nat} (hs : b.Level es s)
    (hn : b.Level es (s + n)) (hsteady : Change.SteadyAll cs [.deletion s n]) :
    StaysBalanced cs [.deletion s n] := by
  obtain ⟨awaited, hawaited⟩ := h.exists_awaited hcs
  have hstop := h.innerStop_le
  have hle := hn.le
  exact hcs.staysBalanced_cut (by omega) hsteady ((h.awaitedUpto_level hs).trans hawaited)
    ((h.awaitedUpto_level hn).trans hawaited)

/-! ### Level offsets -/

theorem level_between {x y : List Tree} (h : b.Interior cs L (x ++ y) R) :
    b.Level (x ++ y) (b.innerStart + rowWidth x) := by
  have hx : Tallies x := .of_forall fun e he => h.each e (by simp [he])
  have hy : Tallies y := .of_forall fun e he => h.each e (by simp [he])
  have hstop := h.innerStop
  rw [rowWidth_append] at hstop
  refine ⟨by omega, by omega, ?_⟩
  rw [rowWithin_append, awaitedAt_append, hx.awaitedAt_outside (.inr (Nat.le_refl _)),
    hy.awaitedAt_outside (.inl (Nat.le_refl _))]
  rfl

theorem level_innerStart (h : b.Interior cs L es R) : b.Level es b.innerStart :=
  @level_between cs b L R [] es h

theorem level_innerStop (h : b.Interior cs L es R) : b.Level es b.innerStop := by
  have hlevel := @level_between cs b L R es [] (by rw [List.append_nil]; exact h)
  rw [List.append_nil, ← h.innerStop] at hlevel
  exact hlevel

/-- A form of a container stands in its row `es`. -/
theorem exists_split (h : b.Interior cs L es R) (hf : f ∈ b.forms) :
    ∃ x y, es = x ++ .node f.kind f.children :: y ∧ f.start = b.innerStart + rowWidth x := by
  rw [h.forms] at hf
  obtain ⟨x, y, hes, heq⟩ := exists_of_mem_inRow hf
  exact ⟨x, y, hes, congrArg (·.start) heq⟩

theorem level_start (h : b.Interior cs L es R) (hf : f ∈ b.forms) : b.Level es f.start := by
  obtain ⟨x, y, rfl, hstart⟩ := h.exists_split hf
  rw [hstart]
  exact h.level_between

theorem level_stop (h : b.Interior cs L es R) (hf : f ∈ b.forms) : b.Level es f.stop := by
  obtain ⟨x, y, rfl, hstart⟩ := h.exists_split hf
  have hsplit : x ++ .node f.kind f.children :: y = (x ++ [.node f.kind f.children]) ++ y := by simp
  rw [hsplit] at h ⊢
  have hlevel := h.level_between
  have hstop : f.stop = f.start + rowWidth f.children := f.stop_eq
  have heq : f.stop = b.innerStart + rowWidth (x ++ [.node f.kind f.children]) := by
    rw [hstop, hstart, rowWidth_append, rowWidth, rowWidth, width]
    omega
  rw [heq]
  exact hlevel

/-- Nothing inside an atom holds an offset. -/
theorem level_atom (h : b.Interior cs L es R) (hf : f ∈ b.forms) (hk : f.kind = .atom) {n : Nat}
    (hge : f.start ≤ n) (hle : n ≤ f.stop) : b.Level es n := by
  have hstart := h.level_start hf
  have hend := h.level_stop hf
  have hlow := hstart.ge
  have hhigh := hend.le
  refine ⟨by omega, by omega, ?_⟩
  obtain ⟨x, y, rfl, hx⟩ := h.exists_split hf
  have hstop : f.stop = f.start + rowWidth f.children := f.stop_eq
  have hfront : Tallies x := .of_forall fun e he => h.each e (by simp [he])
  have hback : Tallies y := .of_forall fun e he => h.each e (by simp [he])
  have hatom : ∀ start, within (b.toSite :: b.around) start (.node f.kind f.children) =
      [ofNode f.kind start f.children (b.toSite :: b.around)] := by
    intro start
    have htidy := h.tidy (.node f.kind f.children) (by simp)
    rw [hk] at htidy
    obtain ⟨t, ht⟩ := htidy.exists_of_atom
    rw [ht]
    rfl
  have hself : awaitedAt [ofNode f.kind (b.innerStart + rowWidth x) f.children
      (b.toSite :: b.around)] n = [] := by
    refine awaitedAt_eq_nil fun g hg hg' => ?_
    rw [List.mem_singleton.mp hg] at hg'
    have hg' : f.kind.isCollection = true := hg'
    rw [hk] at hg'
    cases hg'
  rw [rowWithin_append, rowWithin, hatom, awaitedAt_append, awaitedAt_append, hself,
    hfront.awaitedAt_outside (.inr (by omega)), hback.awaitedAt_outside (.inl (by
      simp only [width]
      omega))]
  rfl

end Interior

/-! ### Collections and the document -/

/-- A collection of a balanced text in place: the tokens `L`, the opener, the row inside, the
closer, and the tokens `R`. -/
structure Bracketed (cs : List Char) (f : Form) (L : List Token) (o : Token) (es : List Tree)
    (c : Token) (R : List Token) : Prop where
  brackets : f.Brackets o es c
  tokens : scan cs = L ++ o :: (rowLeaves es ++ c :: R)
  start : f.start = widthOf L
  tidy : ∀ e ∈ es, Tidy e
  each : ∀ e ∈ es, Tallies [e]

end Form

namespace Text.Balanced

open Form

variable {cs : List Char}

/-- Every collection of a `Balanced` text is `Bracketed`. -/
theorem exists_bracketed (h : Balanced cs) {f : Form} (hf : Placed (Tree.parse cs) f)
    (hk : f.isCollection) : ∃ L o es c R, f.Bracketed cs L o es c R := by
  obtain ⟨ts, hparse, htidies, -⟩ := h.tallies
  obtain ⟨L, R, hleaves, hstart⟩ := hf.exists_context
  have hspelled : ∀ t ∈ rowLeaves f.children, Token.Spelled t.kind t.text := by
    intro t ht
    have hmem : t ∈ (Tree.parse cs).leaves := by simp [hleaves, ht]
    rw [Tree.parse, leaves_read] at hmem
    exact Token.spelled_of_mem_scan hmem
  rw [Tree.parse, leaves_read] at hleaves
  rw [hparse] at hf
  rcases hf.tidy htidies with rfl | ⟨-, htidy⟩
  · cases hk
  · obtain ⟨o, es, c, hchildren, ho, hc, hes⟩ := htidy.exists_of_isCollection hk
    rw [hchildren] at hspelled hleaves
    have hone : f.kind.opening.length = 1 ∧ f.kind.closing.length = 1 := by
      rw [Form.isCollection] at hk
      cases hkind : f.kind <;> rw [hkind] at hk <;> cases hk <;> exact ⟨rfl, rfl⟩
    have hopening := (hspelled o (by simp [rowLeaves, leaves])).text_opener ho
    have hclosing := (hspelled c (by simp [rowLeaves, leaves])).text_closer hc
    refine ⟨L, o, es, c, R, ⟨hchildren, ho, hc, by rw [hopening, hone.1],
      by rw [hclosing, hone.2]⟩, ?_, hstart, hes, ?_⟩
    · rw [hleaves]
      simp [rowLeaves, leaves]
    · intro e he
      refine (hes e he).tallies fun u hu => hspelled u ?_
      obtain ⟨xs, ys, rfl⟩ := List.append_of_mem he
      simp [rowLeaves, leaves, hu]

theorem root_eq (h : Balanced cs) : ∃ ts, Tree.parse cs = .node .root ts ∧
    (Document.ofText cs).root = ofNode .root 0 ts [] ∧
    (ofNode .root 0 ts []).Interior cs [] ts [] := by
  obtain ⟨ts, hparse, htidy, -⟩ := h.tallies
  refine ⟨ts, hparse, ?_, ?_⟩
  · unfold Document.root Document.ofText
    simp only [hparse]
  · have hleaves := rowLeaves_of_parse_eq hparse
    have hstop : (ofNode .root 0 ts []).innerStop =
        (ofNode .root 0 ts []).innerStart + rowWidth ts := by
      rw [innerStop]
      split <;> rfl
    refine ⟨by rw [List.nil_append, List.append_nil, hleaves], rfl, hstop, htidy, ?_, ?_⟩
    · intro e he
      refine (htidy e he).tallies fun u hu => ?_
      have hmem : u ∈ scan cs := by
        rw [← hleaves]
        obtain ⟨xs, ys, rfl⟩ := List.append_of_mem he
        simp [rowLeaves, hu]
      exact Token.spelled_of_mem_scan hmem
    · exact filter_inRow_isForm htidy

end Text.Balanced

namespace Form.Bracketed

variable {cs : List Char} {f : Form} {L R : List Token} {o c : Token} {es : List Tree}

theorem interior (h : f.Bracketed cs L o es c R) : f.Interior cs (L ++ [o]) es (c :: R) := by
  have hone := h.brackets.opener_length
  have hstart := h.brackets.innerStart_eq
  have hstop := h.brackets.innerStop_eq
  refine ⟨?_, ?_, by omega, h.tidy, h.each, ?_⟩
  · rw [h.tokens]
    simp
  · have hL := h.start
    rw [Token.widthOf_append, Token.widthOf_cons, Token.widthOf_nil]
    omega
  · rw [Form.forms, h.brackets.nodes_eq, h.brackets.innerStart_eq]
    exact filter_inRow_isForm h.tidy

end Form.Bracketed

namespace Document

open Form

variable {cs : List Char} {offset : Nat}

/-- The collection that `innermost?` finds, in place, with the offset `Level` in it. -/
theorem exists_bracketed_of_innermost? (h : Balanced cs) {f : Form}
    (hf : (ofText cs).innermost? offset = some f) :
    ∃ L o es c R, f.Bracketed cs L o es c R ∧ f.Level es offset := by
  obtain ⟨hmem, hk, hholds, hinside⟩ := innermost?_eq_some hf
  obtain ⟨L, o, es, c, R, hf⟩ := h.exists_bracketed (placed_of_mem_within hmem) hk
  rw [holds, Bool.and_eq_true, decide_eq_true_eq, decide_eq_true_eq] at hholds
  refine ⟨L, o, es, c, R, hf, hholds.1, hholds.2, awaitedAt_eq_nil fun g hg => ?_⟩
  rw [hf.brackets.innerStart_eq, ← hf.brackets.rowWithin_children] at hg
  exact hinside g hg

/-- The `container` at an offset, with the offset `Level` in it. -/
theorem exists_interior_container (h : Balanced cs) (hoffset : offset ≤ cs.length) :
    ∃ L es R, ((ofText cs).container offset).Interior cs L es R ∧
      ((ofText cs).container offset).Level es offset := by
  rw [container]
  cases hf : (ofText cs).innermost? offset with
  | some f =>
    obtain ⟨L, o, es, c, R, hf, hlevel⟩ := exists_bracketed_of_innermost? h hf
    exact ⟨L ++ [o], es, c :: R, hf.interior, hlevel⟩
  | none =>
    obtain ⟨ts, hparse, hroot, hinterior⟩ := h.root_eq
    rw [Option.getD_none, hroot]
    refine ⟨[], ts, [], hinterior, Nat.zero_le _, ?_, awaitedAt_eq_nil fun g hg => ?_⟩
    · have hwidth : widthOf (scan cs) = cs.length := by rw [widthOf, Token.scan_text]
      have htokens := hinterior.tokens
      have hstop := hinterior.innerStop
      rw [List.nil_append, List.append_nil] at htokens
      rw [htokens, ← rowWidth_eq_widthOf] at hwidth
      have hzero : (ofNode .root 0 ts []).innerStart = 0 := rfl
      omega
    · refine innermost?_eq_none hf g ?_
      rw [(ofText cs).nodes_eq]
      show g ∈ within [] 0 (Tree.parse cs)
      rw [hparse]
      exact List.mem_cons_of_mem _ hg

end Document

end SexpEdit
