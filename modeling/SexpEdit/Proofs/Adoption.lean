/-
Taking in the next form.

Slurping moves the closer of a collection behind the next form.  What stood before the closer then
meets the blanks and comments that stood behind it, and these may be cut into other tokens than
before; the last form of the collection, the next form and all other tokens stay.  So the tree that
is read from the new text has the collection in its place, with the next form as its last one.

* `IsRow.exists_trailing` — a row ends in trivia, after its last node if it has one;
* `Tree.formTexts` — the texts of the forms of a row;
* `scan_adopted` — the tokens of the new text;
* `Trade.adopt` — a collection with the next form in it stands where the two stood;
* `Document.slurp_adopts_next` — slurping forward adds exactly the next form.
-/
import SexpEdit.Proofs.Fitting
import SexpEdit.Proofs.Regrouping
import SexpEdit.Proofs.Reshaping
import SexpEdit.Proofs.Seam
import SexpEdit.Proofs.WrapSplice

namespace SexpEdit

open SexpEdit.Tree Grammar Text
open Token (scan widthOf)

/-! ### The row between the delimiters -/

namespace Kind

theorem isSome_glyph?_of_collection? {o k : Kind} (h : o.collection? = some k) :
    o.glyph?.isSome := by
  cases o <;> cases h <;> rfl

theorem isSome_glyph?_of_isCloser {k : Kind} (h : k.isCloser) : k.glyph?.isSome := by
  cases k <;> cases h <;> rfl

theorem isTrivia_of_isCloser {k : Kind} (h : k.isCloser) : k.isTrivia = false := by
  cases k <;> cases h <;> rfl

end Kind

namespace Grammar

/-- What stands between the delimiters `o` and `c` of a collection is an `IsRow`. -/
theorem IsForm.isRow_of_closer {rest : List Token} {o c : Token} {k : Kind} {es : List Tree}
    (h : IsForm rest (node k (leaf o :: (es ++ [leaf c])))) (ho : o.kind.collection? = some k)
    (hc : k.ending? = some c.kind) : IsRow k.ending? (c :: rest) es := by
  have hne := Kind.ne_prefixed_of_collection? ho
  generalize hts : Tree.leaf o :: (es ++ [leaf c]) = ts at h
  cases h with
  | atom => simp at hts
  | closed _ _ hes =>
    obtain ⟨rfl, hlast⟩ := List.append_inj' (List.cons.inj hts).2 rfl
    obtain rfl := Tree.leaf.inj (List.cons.inj hlast).1
    exact hes
  | unclosed _ hes =>
    -- a closer at the end of the row would be trivia
    have htrivia : c.kind.isTrivia := hes.isTrivia_of_leaf_mem (by
      rw [← (List.cons.inj hts).2]
      simp)
    rw [Kind.isTrivia_of_isCloser (Kind.isCloser_of_ending? hc)] at htrivia
    cases htrivia
  | prefixed => exact absurd rfl hne
  | dangling => exact absurd rfl hne

/-- A row `IsRow` ends in trivia, after its last node if it has one. -/
theorem IsRow.exists_trailing {inner : Option Kind} {rest : List Token} {es : List Tree}
    (h : IsRow inner rest es) :
    ∃ (p : List Tree) (q : List Token), es = p ++ q.map leaf ∧ (∀ t ∈ q, t.kind.isTrivia) ∧
      (p = [] ∨ ∃ x k us, p = x ++ [node k us]) := by
  obtain ⟨p, q, rfl, hq, hp⟩ := Form.exists_trailing_leaves es
  have hleaves : ∃ ts : List Token, q = ts.map leaf := by
    clear h
    induction q with
    | nil => exact ⟨[], rfl⟩
    | cons e q ih =>
      obtain ⟨t, rfl⟩ := hq e (by simp)
      obtain ⟨ts, rfl⟩ := ih fun e' he' => hq e' (by simp [he'])
      exact ⟨t :: ts, rfl⟩
  obtain ⟨ts, rfl⟩ := hleaves
  exact ⟨p, ts, rfl, fun t ht => h.isTrivia_of_leaf_mem (by simp [ht]), hp⟩

/-- A form that is not `endsBare` ends with an atom or a delimiter. -/
theorem IsForm.last_of_endsBare {rest : List Token} {k : Kind} {us : List Tree}
    (h : IsForm rest (node k us)) (hrest : rest ≠ []) (hbare : endsBare (node k us) = false)
    (front : List Token) : ∀ t, (front ++ rowLeaves us).getLast? = some t →
      t.kind.isAtomic ∨ t.kind.glyph?.isSome := by
  intro t ht
  obtain ⟨ts, u, hts, hu⟩ := h.exists_last_of_endsBare hrest hbare
  have hts : rowLeaves us = ts ++ [u] := hts
  rw [hts, ← List.append_assoc, List.getLast?_concat] at ht
  rw [← Option.some.inj ht]
  exact hu.imp_right Kind.isSome_glyph?_of_isCloser

/-- So does the inside of a collection up to its last node, with the opener before it. -/
theorem IsRow.last_of_endsBare {o : Token} {k : Kind} {inner : Option Kind} {rest : List Token}
    {p : List Tree} (ho : o.kind.collection? = some k) (h : IsRow inner rest p) (hrest : rest ≠ [])
    (hp : p = [] ∨ ∃ x k us, p = x ++ [node k us])
    (hbare : ∀ t, p.getLast? = some t → t.endsBare = false) :
    ∀ t, (o :: rowLeaves p).getLast? = some t → t.kind.isAtomic ∨ t.kind.glyph?.isSome := by
  intro t ht
  rcases hp with rfl | ⟨x, k, us, rfl⟩
  · rw [← Option.some.inj ht]
    exact .inr (Kind.isSome_glyph?_of_collection? ho)
  · have hleaves : o :: rowLeaves (x ++ [node k us]) = (o :: rowLeaves x) ++ rowLeaves us := by
      simp [rowLeaves, leaves]
    rw [hleaves] at ht
    cases (isRow_append.mp h).2 with
    | @error _ _ u _ hu =>
      have ht : ((o :: rowLeaves x) ++ [u]).getLast? = some t := ht
      rw [List.getLast?_concat] at ht
      rw [← Option.some.inj ht]
      exact .inr (Kind.isSome_glyph?_of_isCloser hu)
    | form hform =>
      exact hform.last_of_endsBare (by simpa [rowLeaves] using hrest)
        (hbare _ (List.getLast?_concat ..)) _ t ht

/-- **A collection with the next form in it stands where the two stood.** What is left of its own
row must not be `endsBare`, and in the next form every collection has to be closed. -/
theorem Trade.adopt {o c : Token} {j k : Kind} {p us : List Tree} {q bs new rest : List Token}
    (ho : o.kind.collection? = some k) (hc : k.ending? = some c.kind)
    (hlast : ∀ t, p.getLast? = some t → t.endsBare = false) (hnew : ∀ t ∈ new, t.kind.isTrivia)
    (hwhole : Whole (node j us)) (hnext : IsForm rest (node j us)) :
    Trade (bs.map leaf ++ [node j us]) []
      (node k (leaf o :: ((p ++ q.map leaf) ++ [leaf c])))
      (node k (leaf o :: ((p ++ (new.map leaf ++ [node j us])) ++ [leaf c]))) where
  form {after} h := by
    obtain ⟨hp, -⟩ := isRow_append.mp (h.isRow_of_closer ho hc)
    have hform : IsForm (c :: after) (node j us) :=
      hnext.congr_rest (fun _ => hwhole) fun _ => .inl (Kind.isCloser_of_ending? hc)
    refine .closed ho hc (isRow_append.mpr ⟨hp.anywhere (by simp) hlast, ?_⟩)
    exact isRow_append.mpr ⟨isRow_leaves hnew, .form hform .nil⟩
  row _ := .nil
  ends u hu := by
    rw [List.getLast?_concat] at hu
    cases hu

end Grammar

/-! ### The texts of forms -/

/-- The texts of the trees of a row whose kind `isForm`. -/
def Tree.formTexts : List Tree → List (List Char)
  | [] => []
  | .leaf _ :: ts => formTexts ts
  | .node k us :: ts =>
    if k.isForm then (rowLeaves us).flatMap Token.text :: formTexts ts else formTexts ts

theorem Tree.formTexts_append : ∀ ts us : List Tree,
    formTexts (ts ++ us) = formTexts ts ++ formTexts us
  | [], _ => rfl
  | .leaf _ :: ts, us => formTexts_append ts us
  | .node k vs :: ts, us => by
    rw [List.cons_append, formTexts, formTexts, formTexts_append ts us]
    split <;> rfl

theorem Tree.formTexts_leaves (bs : List Token) : formTexts (bs.map leaf) = [] := by
  induction bs with
  | nil => rfl
  | cons b bs ih => exact ih

namespace Form

theorem map_text_inRow (around : List Site) : ∀ (ts : List Tree) (start : Nat),
    ((inRow around start ts).filter (·.kind.isForm)).map text = formTexts ts
  | [], _ => rfl
  | .leaf _ :: ts, _ => map_text_inRow around ts _
  | .node k us :: ts, start => by
    have htail := map_text_inRow around ts (ofNode k start us around).stop
    rw [inRow, formTexts, List.filter_cons]
    by_cases hk : k.isForm
    · rw [if_pos hk, ← htail]
      exact congrArg _ (if_pos hk)
    · rw [if_neg hk, ← htail]
      exact congrArg _ (if_neg hk)

theorem map_text_forms (f : Form) : f.forms.map text = formTexts f.children :=
  map_text_inRow _ _ _

/-- A closed collection in place has its delimiters around a row: it `Brackets` that row. -/
theorem Placed.exists_brackets {d : Document} {f : Form} (h : Placed d.tree f)
    (hk : f.isCollection) (hclosed : f.isClosed) :
    ∃ o es c rest, f.Brackets o es c ∧ IsRow f.kind.ending? (c :: rest) es := by
  obtain ⟨o, es, hchildren, ho, hol, ⟨-, xs, c, rfl, hc, hcl⟩ | ⟨hopen, -⟩⟩ :=
    h.exists_delimiters hk
  · obtain ⟨rest, -, hform⟩ := h.exists_isForm (Kind.isForm_of_isCollection hk)
    rw [hchildren] at hform
    exact ⟨o, xs, c, rest, ⟨hchildren, ho, hc, hol, hcl⟩, hform.isRow_of_closer ho hc⟩
  · exact absurd hclosed hopen

/-- The last node of a row comes last among its forms, if it is one. -/
theorem filter_inRow_trailing (around : List Site) (start : Nat) (x us : List Tree) {k : Kind}
    (hk : k.isForm) (q : List Token) :
    (inRow around start ((x ++ [node k us]) ++ q.map leaf)).filter (·.kind.isForm) =
      (inRow around start x).filter (·.kind.isForm) ++
        [ofNode k (start + rowWidth x) us around] := by
  have hself : (ofNode k (start + rowWidth x) us around).kind.isForm := hk
  have hleaves := inRow_leaves around (ofNode k (start + rowWidth x) us around).stop q []
  rw [List.append_nil] at hleaves
  rw [List.append_assoc, inRow_append, List.filter_append, List.singleton_append, inRow, hleaves,
    inRow, List.filter_singleton, hself]
  rfl

theorem Brackets.forms_eq {f : Form} {o c : Token} {es : List Tree} (h : f.Brackets o es c) :
    f.forms = (inRow (f.toSite :: f.around) (f.start + 1) es).filter (·.kind.isForm) := by
  rw [forms, h.nodes_eq]

/-- The last node of the row is not `endsBare` if the last form does not. -/
theorem Brackets.endsBare_of_getLast? {f : Form} {o c : Token} {p : List Tree} {q : List Token}
    (h : f.Brackets o (p ++ q.map leaf) c) (hp : p = [] ∨ ∃ x k us, p = x ++ [node k us])
    (hbare : ∀ e ∈ f.forms.getLast?, e.endsBare = false) :
    ∀ t, p.getLast? = some t → t.endsBare = false := by
  intro t ht
  rcases hp with rfl | ⟨x, k, us, rfl⟩
  · cases ht
  · rw [List.getLast?_concat] at ht
    rw [← Option.some.inj ht]
    by_cases hk : k.isForm
    · refine hbare (ofNode k (f.start + 1 + rowWidth x) us (f.toSite :: f.around)) ?_
      rw [h.forms_eq, filter_inRow_trailing _ _ _ _ hk, List.getLast?_concat]
      rfl
    · exact endsBare_of_not_isForm hk us

end Form

/-! ### The tokens -/

namespace Token

/-- The closer of a collection is one character, its `glyph?`. -/
theorem Spelled.exists_glyph {c : Token} {k : Kind} (h : Spelled c.kind c.text)
    (hc : k.ending? = some c.kind) :
    ∃ e, c = ⟨c.kind, [e]⟩ ∧ c.kind.glyph? = some e ∧ k.closing = [e] := by
  have htext := h.text_closer hc
  obtain ⟨j, cs⟩ := c
  dsimp only at hc htext ⊢
  rw [htext]
  cases k <;> cases hc <;> exact ⟨_, rfl, rfl, rfl⟩

/-- The tokens `us` behind others are those that `scan` finds in their text. -/
theorem scan_behind {cs : List Char} {ts us : List Token} (hscan : scan cs = ts ++ us)
    (hterm : ∀ t ∈ ts, t.kind ≠ .unterminatedString) : scan (us.flatMap text) = us := by
  have htext : cs = ts.flatMap text ++ us.flatMap text := by
    rw [← List.flatMap_append, ← hscan, scan_text]
  rw [htext] at hscan
  exact (scan_relieved hscan (.inl rfl) hterm fun _ _ _ => rfl).1

/-- **The tokens when a closer moves behind a form.** The trivia `q` and `bs` on both sides of the
closer `c` may be cut in other places; all other tokens stay. -/
theorem scan_adopted {cs : List Char} {front q bs next after : List Token} {c : Token} {d : Char}
    (hscan : scan cs = front ++ (q ++ c :: (bs ++ (next ++ after))))
    (hterm : ∀ t ∈ scan cs, t.kind ≠ .unterminatedString ∧ t ≠ backslash)
    (hfront : ∀ t, front.getLast? = some t → t.kind.isAtomic ∨ t.kind.glyph?.isSome)
    (hq : ∀ t ∈ q, t.kind.isTrivia) (hc : c.kind.isCloser) (hbs : ∀ t ∈ bs, t.kind.isTrivia)
    (hne : bs ≠ []) (hnext : StartsForm next)
    (hlast : ∀ t, next.getLast? = some t → t.kind ≠ .comment) (hd : c.kind.glyph? = some d) :
    ∃ new, (∀ t ∈ new, t.kind.isTrivia) ∧
      scan (front.flatMap text ++ (q.flatMap text ++ (bs.flatMap text ++
        (next.flatMap text ++ d :: after.flatMap text)))) =
      front ++ (new ++ (next ++ ⟨c.kind, [d]⟩ :: after)) := by
  have hmem : ∀ t, t ∈ front ∨ t ∈ q ∨ t = c ∨ t ∈ bs ∨ t ∈ next ∨ t ∈ after → t ∈ scan cs := by
    intro t ht
    rw [hscan]
    simpa using ht
  obtain ⟨u, us, rfl⟩ : ∃ u us, next = u :: us := by
    cases next with
    | nil => exact hnext.elim
    | cons u us => exact ⟨u, us, rfl⟩
  -- the next form and what is behind it
  have hbehind : scan cs = (front ++ (q ++ c :: bs)) ++ ((u :: us) ++ after) := by
    rw [hscan]
    simp
  have hrest := scan_behind hbehind fun t ht =>
    (hterm t (by rw [hbehind]; exact List.mem_append_left _ ht)).1
  rw [List.flatMap_append] at hrest
  obtain ⟨hafter, hmoved⟩ := scan_delimiter hrest (fun t ht => hterm t (hmem t (by simp_all)))
    hlast hd (after.flatMap text)
  rw [hafter] at hmoved
  -- the trivia before it
  have hidle : Idle (q.flatMap text ++ bs.flatMap text) := by
    have hgap : scan cs = (front ++ (q ++ [c])) ++ (bs ++ u :: (us ++ after)) := by
      rw [hscan]
      simp
    exact (idle_of_scan hscan hq (Kind.isTrivia_of_isCloser hc)).append
      (idle_of_scan hgap hbs hnext.1)
  have hstarts : ∀ e, ((u :: us).flatMap text ++ d :: after.flatMap text).head? = some e →
      isIdle e = false := by
    have hspelled : Spelled u.kind u.text := spelled_of_mem_scan (hmem u (by simp))
    obtain ⟨e, es, hes⟩ := List.exists_cons_of_ne_nil (scan_text_ne_nil (hmem u (by simp)))
    rw [hes] at hspelled
    intro e' he'
    rw [List.flatMap_cons, hes] at he'
    rw [← Option.some.inj he']
    exact hspelled.not_isIdle hnext.1
  obtain ⟨new, hnew, htrivia, -⟩ := scan_idle hstarts _ (Nat.le_refl _) hidle
  have hends : ∀ e, ((q.flatMap text ++ bs.flatMap text) ++ ((u :: us).flatMap text ++
      d :: after.flatMap text)).head? = some e → endsSymbol e := by
    have hnonempty : q.flatMap text ++ bs.flatMap text ≠ [] := by
      obtain ⟨b, bs', rfl⟩ := List.exists_cons_of_ne_nil hne
      have htext := scan_text_ne_nil (hmem b (by simp))
      simp [htext]
    intro e he
    rw [List.head?_append_of_ne_nil _ hnonempty] at he
    exact hidle.endsSymbol_of_head? he
  have htext : cs = front.flatMap text ++
      (q ++ c :: (bs ++ ((u :: us) ++ after))).flatMap text := by
    rw [← List.flatMap_append, ← hscan, scan_text]
  rw [htext] at hscan
  obtain ⟨-, hfinal⟩ := scan_ended hscan (fun t ht => hterm t (hmem t (by simp [ht]))) hfront hends
  refine ⟨new, htrivia, ?_⟩
  rw [hnew, hmoved] at hfinal
  simpa using hfinal

end Token

/-! ### Slurping -/

namespace Form

variable {d : Document} {f g : Form}

/-- **A collection takes in the next form.**  The text with its closer behind that form has the
collection in the same place, with one form more. -/
theorem Placed.exists_adopted (h : Placed d.tree f) (hk : f.isCollection) (hclosed : f.isClosed)
    (hterm : ∀ t ∈ scan d.text, t.kind ≠ .unterminatedString ∧ t ≠ Token.backslash)
    (hg : f.next? = some g) (hlt : f.stop < g.start)
    (hgap : ∀ l ∈ d.leaves, f.stop ≤ l.start → l.start < g.start → l.kind.isTrivia)
    (hbare : ∀ e ∈ f.forms.getLast?, e.endsBare = false)
    (hwhole : Whole (node g.kind g.children)) :
    ∃ before passed after f', d.text = before ++ (f.closing ++ (passed ++ after)) ∧
      f.stop = before.length + 1 ∧ g.stop = f.stop + passed.length ∧
      Placed (Document.ofText (before ++ (passed ++ (f.closing ++ after)))).tree f' ∧
      f'.kind = f.kind ∧ f'.isClosed ∧ f'.start = f.start ∧
      f'.forms.map text = f.forms.map text ++ [g.text] := by
  have hform := Kind.isForm_of_isCollection hk
  obtain ⟨o, es, c, rest, hbrackets, hrow⟩ := h.exists_brackets hk hclosed
  obtain ⟨p, q, rfl, hq, hp⟩ := hrow.exists_trailing
  have hlast := hbrackets.endsBare_of_getLast? hp hbare
  have hends := (isRow_append.mp hrow).1.last_of_endsBare hbrackets.opener (by simp) hp hlast
  obtain ⟨b, pre, bs, post, hfollowed, hbs, hgstart, hgplaced, hgform⟩ :=
    h.exists_followed_of_next? hform hg hgap
  obtain ⟨grest, -, hgisForm⟩ := hgplaced.exists_isForm hgform
  have hne : bs ≠ [] := by
    rintro rfl
    rw [Token.widthOf_nil] at hgstart
    omega
  -- the tokens before the closer, the trivia on both sides of it, and the next form
  obtain ⟨L, R, hleaves, hL⟩ := h.exists_tokens hform hfollowed (by simp)
  have hscan : scan d.text =
      (L ++ o :: rowLeaves p) ++ (q ++ c :: (bs ++ (rowLeaves g.children ++ R))) := by
    rw [← d.leaves_tree, hleaves, hbrackets.children]
    simp [rowLeaves, leaves]
  have hfront : ∀ t, (L ++ o :: rowLeaves p).getLast? = some t →
      t.kind.isAtomic ∨ t.kind.glyph?.isSome := by
    intro t ht
    refine hends t ?_
    rwa [List.getLast?_append_of_ne_nil _ (by simp)] at ht
  have hstarts : StartsForm (rowLeaves g.children) := by
    simpa [leaves] using hgisForm.startsForm []
  have hspelled : Token.Spelled c.kind c.text :=
    Token.spelled_of_mem_scan (by rw [hscan]; simp)
  obtain ⟨e, hc, hglyph, hclosing⟩ := hspelled.exists_glyph hbrackets.closer
  obtain ⟨new, hnew, hscan'⟩ := Token.scan_adopted hscan hterm hfront hq
    (Kind.isCloser_of_ending? hbrackets.closer) hbs hne hstarts (hgisForm.last_ne_comment hwhole)
    hglyph
  -- the new text has the tokens of the document in which the collection holds the next form
  obtain ⟨root, around, hroot, hplaced, hrootLeaves⟩ :=
    h.trade_at hform hfollowed hleaves hL (by
      rw [hbrackets.children]
      exact Trade.adopt hbrackets.opener hbrackets.closer hlast hnew hwhole hgisForm)
  have hread := Document.tree_ofText hroot (hscan'.trans (by
    rw [hrootLeaves, ← hc]
    simp [rowLeaves, leaves]))
  refine ⟨(L ++ o :: rowLeaves p).flatMap Token.text ++ q.flatMap Token.text,
    bs.flatMap Token.text ++ g.text, R.flatMap Token.text,
    ofNode f.kind f.start (leaf o :: ((p ++ (new.map leaf ++ [node g.kind g.children])) ++
      [leaf c])) around, ?_, ?_, ?_, ?_, rfl, ?_, rfl, ?_⟩
  · rw [← Token.scan_text d.text, hscan, hc]
    show _ = _ ++ (f.kind.closing ++ _)
    rw [hclosing]
    simp [text]
  · have hol := hbrackets.opener_length
    have hL : f.start = (L.flatMap Token.text).length := hL
    rw [hbrackets.stop_eq, rowWidth_eq, hL]
    simp only [rowLeaves_append, rowLeaves_map_leaf, List.flatMap_append, List.flatMap_cons,
      List.length_append]
    omega
  · have hbslength : widthOf bs = (bs.flatMap Token.text).length := rfl
    rw [g.stop_eq_start_add, hgstart, List.length_append, hbslength]
    omega
  · have htext : (L ++ o :: rowLeaves p).flatMap Token.text ++ q.flatMap Token.text ++
        (bs.flatMap Token.text ++ g.text ++ (f.closing ++ R.flatMap Token.text)) =
        (L ++ o :: rowLeaves p).flatMap Token.text ++ (q.flatMap Token.text ++
          (bs.flatMap Token.text ++
            ((rowLeaves g.children).flatMap Token.text ++ e :: R.flatMap Token.text))) := by
      rw [show f.closing = [e] from hclosing]
      simp [text]
    rw [htext, hread]
    exact hplaced
  · exact isClosed_ofNode hbrackets.opener hbrackets.closer
  · rw [map_text_forms, map_text_forms, hbrackets.children]
    simp [ofNode, Site.ofNode, formTexts, formTexts_append, formTexts_leaves, hgform, text]

end Form

namespace Makes

variable (before moved passed after : List Char)

/-- A text is moved on over another one. -/
theorem moved_on : Makes (before ++ (moved ++ (passed ++ after)))
    [.deletion before.length moved.length, .insertion (before.length + passed.length) moved]
    (before ++ (passed ++ (moved ++ after))) := by
  refine .deletion before moved (passed ++ after) rfl rfl rfl ?_
  refine .insertion (before ++ passed) after (by simp) (by simp) ?_
  rw [List.append_assoc]
  exact .nil _

end Makes

namespace Document

open Form (Placed)

variable {d : Document} {offset : Nat} {f g : Form}

theorem isCollection_of_mem_outward (h : f ∈ d.outward offset) : f.isCollection := by
  rw [outward] at h
  split at h
  · cases h
  · rename_i list hlist
    obtain ⟨hmem, hk, -⟩ := innermost?_eq_some hlist
    rcases List.mem_cons.mp h with rfl | h
    · exact hk
    · exact ((placed_of_mem_nodes hmem).mem_collectionsOf f h).2

/-- A forward `slurp?` is about the first collection that is closed and has a form after it. -/
theorem slurp?_of_find?
    (hf : (d.outward offset).find? (fun f => f.isClosed && f.next?.isSome) = some f)
    (hg : f.next? = some g) : d.slurp? offset false = some ⟨adopt f g false, offset⟩ := by
  obtain ⟨hself, before, after, hsplit, hbefore⟩ := List.find?_eq_some_iff_append.mp hf
  rw [Bool.and_eq_true] at hself
  refine List.findSome?_eq_some_iff.mpr ⟨before, f, after, hsplit, ?_, fun list hlist => ?_⟩
  · rw [if_pos hself.1, if_neg Bool.false_ne_true, hg, Option.map_some]
  · have hnot := hbefore list hlist
    by_cases hclosed : list.isClosed
    · rw [hclosed, Bool.true_and, Bool.not_eq_true', Option.isSome_eq_false_iff,
        Option.isNone_iff_eq_none] at hnot
      rw [if_pos hclosed, if_neg Bool.false_ne_true, hnot, Option.map_none]
    · exact if_neg hclosed

theorem adopt_forward {n m : Nat} (hk : f.isCollection) (hf : f.stop = n + 1)
    (hg : g.stop = f.stop + m) : adopt f g false =
      [.deletion n f.closing.length, .insertion (n + m) f.closing] := by
  have hlength : f.closing.length = 1 := (Form.length_delimiters hk).2
  have hdeleted : f.stop - f.closing.length = n := by omega
  have hinserted : g.stop - f.closing.length = n + m := by omega
  show [Change.deletion (f.stop - f.closing.length) f.closing.length,
    .insertion (g.stop - f.closing.length) f.closing] = _
  rw [hdeleted, hinserted]

/-- **Slurping forward adopts exactly the next form.**  The collection is the first one outward from
the offset that is closed and has a form after it; trivia has to stand between the two.  No string
may lack its quote and no backslash may wait for a character.  The last form of the collection must
not end with a bare prefix, and in the next form every collection has to be closed. -/
theorem slurp_adopts_next
    (hterm : ∀ t ∈ scan d.text, t.kind ≠ .unterminatedString ∧ t ≠ Token.backslash)
    (hf : (d.outward offset).find? (fun f => f.isClosed && f.next?.isSome) = some f)
    (hg : f.next? = some g) (hlt : f.stop < g.start)
    (hgap : ∀ l ∈ d.leaves, f.stop ≤ l.start → l.start < g.start → l.kind.isTrivia)
    (hbare : ∀ e ∈ f.forms.getLast?, e.endsBare = false)
    (hwhole : ∀ e ∈ Form.within g.around g.start (node g.kind g.children),
      e.isCollection → e.isClosed) :
    ∃ e out, d.slurp? offset false = some e ∧ Makes d.text e.changes out ∧
      ∃ f' ∈ (ofText out).nodes, f'.kind = f.kind ∧ f'.isClosed ∧ f'.start = f.start ∧
        f'.forms.map Form.text = f.forms.map Form.text ++ [g.text] := by
  have hmem := List.mem_of_find?_eq_some hf
  have hself := List.find?_some hf
  rw [Bool.and_eq_true] at hself
  have hk := isCollection_of_mem_outward hmem
  have hnext : Whole (node g.kind g.children) := by
    intro k ts hhas hcollection
    obtain ⟨e, he, rfl, rfl⟩ := Form.exists_mem_within hhas g.around g.start
    exact hwhole e he hcollection
  obtain ⟨before, passed, after, f', htext, hstop, hgstop, hplaced, hkind, hclosed, hstart,
      hforms⟩ :=
    (placed_of_mem_outward hmem).1.exists_adopted hk hself.1 hterm hg hlt hgap hbare hnext
  refine ⟨_, before ++ (passed ++ (f.closing ++ after)), slurp?_of_find? hf hg, ?_, f', ?_, hkind,
    hclosed, hstart, hforms⟩
  · show Makes d.text (adopt f g false) _
    rw [htext, adopt_forward hk hstop hgstop]
    exact .moved_on before f.closing passed after
  · obtain ⟨xs, ys, hnodes, -⟩ := hplaced.nodes_split
    rw [nodes_eq, hnodes]
    simp

/-- A vector with a prefix, found from inside a list that has no form after it.  The carriage return
before its closer and the line feed behind it become one line end, and the form that it takes in has
a prefix too. -/
theorem slurp_adopts_next_prefixed :
    let d := ofText "(f #'[a (b)\r]\n;]\n 'c)".toList
    (∀ t ∈ scan d.text, t.kind ≠ .unterminatedString ∧ t ≠ Token.backslash) ∧
      ∃ f g, (d.outward 9).find? (fun f => f.isClosed && f.next?.isSome) = some f ∧
        f.next? = some g ∧ f.start = 5 ∧ f.stop < g.start ∧
        (∀ l ∈ d.leaves, f.stop ≤ l.start → l.start < g.start → l.kind.isTrivia) ∧
        (∀ e ∈ f.forms.getLast?, e.endsBare = false) ∧
        (∀ e ∈ Form.within g.around g.start (node g.kind g.children),
          e.isCollection → e.isClosed) ∧
        g.text = "'c".toList ∧ d.slurp? 9 false = some ⟨[.deletion 12 1, .insertion 19 [']']], 9⟩ ∧
        ∃ e out, d.slurp? 9 false = some e ∧ Makes d.text e.changes out ∧
          ∃ f' ∈ (ofText out).nodes, f'.kind = f.kind ∧ f'.isClosed ∧ f'.start = f.start ∧
            f'.forms.map Form.text = f.forms.map Form.text ++ [g.text] := by
  intro d
  have hterm : ∀ t ∈ scan d.text, t.kind ≠ .unterminatedString ∧ t ≠ Token.backslash := by
    decide +kernel
  have hslurp : d.slurp? 9 false = some ⟨[.deletion 12 1, .insertion 19 [']']], 9⟩ := by
    decide +kernel
  have hfound : ((d.outward 9).find? fun f => f.isClosed && f.next?.isSome).any (fun f =>
      f.start = 5 ∧ (∀ e ∈ f.forms.getLast?, e.endsBare = false) ∧ f.next?.any (fun g =>
        f.stop < g.start ∧
        (∀ l ∈ d.leaves, f.stop ≤ l.start → l.start < g.start → l.kind.isTrivia) ∧
        (∀ e ∈ Form.within g.around g.start (node g.kind g.children),
          e.isCollection → e.isClosed) ∧
        g.text = "'c".toList)) := by
    decide +kernel
  cases hf : (d.outward 9).find? fun f => f.isClosed && f.next?.isSome with
  | none =>
    rw [hf] at hfound
    cases hfound
  | some f =>
    rw [hf] at hfound
    obtain ⟨hstart, hbare, hnext⟩ := of_decide_eq_true hfound
    cases hg : f.next? with
    | none =>
      rw [hg] at hnext
      cases hnext
    | some g =>
      rw [hg] at hnext
      obtain ⟨hlt, hgap, hwhole, htext⟩ := of_decide_eq_true hnext
      exact ⟨hterm, f, g, rfl, hg, hstart, hlt, hgap, hbare, hwhole, htext, hslurp,
        slurp_adopts_next hterm hf hg hlt hgap hbare hwhole⟩

end Document

end SexpEdit
