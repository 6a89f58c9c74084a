/-
Barfing and slurping.

Barfing moves the closer of a collection before its last form, behind the form before that one or
behind the opener.  The form that is left behind is then the next form of the collection, so
slurping moves the closer back over it.  The tokens stay what they are: the closer that is put in
ends the token before it, and what the last form meets when the closer is gone starts with a
character that ends a symbol.

* `Form.EndsWith` — a collection with its closer right behind its last form;
* `Form.EndsWith.barfPoint_eq` — where barfing puts the closer;
* `Trade.shed` — a collection without its last form, and that form behind it;
* `Form.Placed.exists_shed` — the text with the closer before the last form, and the tree of it;
* `Document.innermost?_of_shorter` — the collection is the innermost one at the caret still;
* `Document.slurp_undoes_barf` — slurping at the caret that barfing leaves gives back the text.
-/
import SexpEdit.Proofs.Adoption
import SexpEdit.Proofs.Cutting

namespace SexpEdit

open SexpEdit.Tree Grammar Text
open Token (scan widthOf)

/-! ### Nodes inside a row -/

namespace Form

mutual

/-- The nodes of a tree do not depend on what is around it, but for that: each has the same
`toSite`. -/
theorem map_toSite_within (around around' : List Site) : ∀ (t : Tree) (start : Nat),
    (within around start t).map toSite = (within around' start t).map toSite
  | .leaf _, _ => rfl
  | .node k ts, start => by
    rw [within, within, List.map_cons, List.map_cons, map_toSite_rowWithin _ _ ts start]
    rfl

theorem map_toSite_rowWithin (around around' : List Site) : ∀ (ts : List Tree) (start : Nat),
    (rowWithin around start ts).map toSite = (rowWithin around' start ts).map toSite
  | [], _ => rfl
  | t :: ts, start => by
    rw [rowWithin, rowWithin, List.map_append, List.map_append, map_toSite_within around around' t,
      map_toSite_rowWithin around around' ts]

end

theorem exists_mem_rowWithin_of_mem {around : List Site} {start : Nat} {ts : List Tree} {g : Form}
    (h : g ∈ rowWithin around start ts) (around' : List Site) :
    ∃ g' ∈ rowWithin around' start ts, g'.toSite = g.toSite := by
  refine List.mem_map.mp ?_
  rw [map_toSite_rowWithin around' around]
  exact List.mem_map_of_mem h

theorem holds_congr {f g : Form} (h : f.toSite = g.toSite) (offset : Nat) :
    f.isCollection = g.isCollection ∧ f.holds offset = g.holds offset := by
  obtain ⟨s, around⟩ := f
  obtain ⟨s', around'⟩ := g
  obtain rfl : s = s' := h
  exact ⟨rfl, rfl⟩

end Form

/-! ### The last form -/

/-- Where the closer goes when the last form is left behind: after the form before it, or after the
opener. -/
def Form.barfPoint (f : Form) : Nat :=
  match f.forms.dropLast.getLast? with
  | some g => g.stop
  | none => f.innerStart

namespace Form

/-- A collection whose closer comes right behind its last form, with trivia between that form and
the row of the others. -/
structure EndsWith (f : Form) (o : Token) (xs : List Tree) (bs : List Token) (k : Kind)
    (us : List Tree) (c : Token) : Prop where
  brackets : f.Brackets o (xs ++ (bs.map leaf ++ [node k us])) c
  others : xs = [] ∨ ∃ zs j vs, xs = zs ++ [node j vs] ∧ j.isForm
  trivia : ∀ b ∈ bs, b.kind.isTrivia
  isForm : k.isForm

namespace EndsWith

variable {f : Form} {o c : Token} {xs us : List Tree} {bs : List Token} {k : Kind}

theorem forms_eq (h : f.EndsWith o xs bs k us c) :
    f.forms = (inRow (f.toSite :: f.around) (f.start + 1) (xs ++ bs.map leaf)).filter
        (·.kind.isForm) ++
      [ofNode k (f.start + 1 + rowWidth (xs ++ bs.map leaf)) us (f.toSite :: f.around)] := by
  have hforms := filter_inRow_trailing (f.toSite :: f.around) (f.start + 1) (xs ++ bs.map leaf) us
    h.isForm []
  rw [List.map_nil, List.append_nil, List.append_assoc] at hforms
  rw [h.brackets.forms_eq, hforms]

/-- **Barfing puts the closer behind the row of the other forms**: that is the `barfPoint`. -/
theorem barfPoint_eq (h : f.EndsWith o xs bs k us c) :
    f.barfPoint = f.start + 1 + rowWidth xs := by
  rw [barfPoint, h.forms_eq, List.dropLast_concat]
  rcases h.others with rfl | ⟨zs, j, vs, rfl, hj⟩
  · have hleaves := inRow_leaves (f.toSite :: f.around) (f.start + 1) bs []
    rw [List.append_nil] at hleaves
    rw [List.nil_append, hleaves]
    exact h.brackets.innerStart_eq
  · rw [filter_inRow_trailing _ _ _ _ hj, List.getLast?_concat]
    show f.start + 1 + rowWidth zs + rowWidth vs = _
    simp only [rowWidth_append, rowWidth, width]
    omega

end EndsWith

/-- In a balanced text a collection whose last form ends at its closer has such a row: it `EndsWith`
that form. -/
theorem Placed.exists_endsWith {d : Document} {f last : Form} (hbalanced : Balanced d.text)
    (h : Placed d.tree f) (hk : f.isCollection) (hlast : f.forms.getLast? = some last)
    (hstop : last.stop = f.innerStop) :
    ∃ o xs bs c rest, f.EndsWith o xs bs last.kind last.children c ∧
      IsRow f.kind.ending? (c :: rest) (xs ++ (bs.map leaf ++ [node last.kind last.children])) ∧
      ∀ e ∈ xs ++ (bs.map leaf ++ [node last.kind last.children]), Tidy e := by
  obtain ⟨L, o, es, c, R, hb⟩ := hbalanced.exists_bracketed (d.tree_eq ▸ h) hk
  obtain ⟨rest, -, hform⟩ := h.exists_isForm (Kind.isForm_of_isCollection hk)
  have hbrackets := hb.brackets
  have htidy := hb.tidy
  rw [hbrackets.children] at hform
  have hrow := hform.isRow_of_closer hbrackets.opener hbrackets.closer
  obtain ⟨p, q, rfl, -, hp⟩ := hrow.exists_trailing
  rcases hp with rfl | ⟨x, k, us, rfl⟩
  · have hleaves := inRow_leaves (f.toSite :: f.around) (f.start + 1) q []
    rw [List.append_nil] at hleaves
    rw [hbrackets.forms_eq, List.nil_append, hleaves] at hlast
    cases hlast
  · have hkform : k.isForm := (htidy (node k us) (by simp)).isForm
    rw [hbrackets.forms_eq, filter_inRow_trailing _ _ _ _ hkform, List.getLast?_concat] at hlast
    obtain rfl := Option.some.inj hlast
    -- nothing stands between the last form and the closer
    have hq : q = [] := by
      have hwidth : f.start + 1 + rowWidth x + rowWidth us = f.innerStop := hstop
      rw [hbrackets.innerStop_eq, rowWidth_append, rowWidth_append, rowWidth, width, rowWidth,
        rowWidth_eq_widthOf (q.map leaf), rowLeaves_map_leaf] at hwidth
      cases q with
      | nil => rfl
      | cons t q =>
        have hmem : t ∈ scan d.text := by
          rw [hb.tokens]
          simp [rowLeaves, leaves]
        have hpos := List.length_pos_of_ne_nil (Token.scan_text_ne_nil hmem)
        rw [Token.widthOf_cons] at hwidth
        omega
    subst hq
    rw [List.map_nil, List.append_nil] at hrow htidy hbrackets
    obtain ⟨xs, bs, rfl, hbs, hxs⟩ := (isRow_append.mp hrow).1.exists_trailing
    rw [List.append_assoc] at hrow htidy hbrackets
    refine ⟨o, xs, bs, c, rest, ⟨hbrackets, ?_, hbs, hkform⟩, hrow, htidy⟩
    rcases hxs with rfl | ⟨zs, j, vs, rfl⟩
    · exact .inl rfl
    · exact .inr ⟨zs, j, vs, rfl, (htidy (node j vs) (by simp)).isForm⟩

end Form

/-! ### A collection without its last form -/

/-- **A collection without its last form, and that form behind it, stand where the collection
stood.** The form must not be `endsBare`. -/
theorem Grammar.Trade.shed {o c : Token} {j k : Kind} {xs us : List Tree} {bs rest : List Token}
    (ho : o.kind.collection? = some k) (hc : k.ending? = some c.kind)
    (hbs : ∀ b ∈ bs, b.kind.isTrivia) (hlast : IsForm (c :: rest) (node j us))
    (hbare : endsBare (node j us) = false) :
    Trade [] (bs.map leaf ++ [node j us])
      (node k (leaf o :: ((xs ++ (bs.map leaf ++ [node j us])) ++ [leaf c])))
      (node k (leaf o :: (xs ++ [leaf c]))) where
  form {after} h := by
    obtain ⟨hxs, -⟩ := isRow_append.mp (h.isRow_of_closer ho hc)
    -- a closer comes behind the row now, and before a closer a prefix may stand alone
    refine .closed ho hc (hxs.congr_rest (fun hnil => by simp at hnil) fun _ => .inl ?_)
    exact Kind.isCloser_of_ending? hc
  row _ := isRow_append.mpr
    ⟨isRow_leaves hbs, .form (hlast.anywhere (fun hnil => by cases hnil) hbare) .nil⟩
  ends u hu := by cases hu

/-- **The tokens when the closer `c` moves back before a form**, that of the tokens `left`. -/
theorem Token.scan_shed {cs : List Char} {front left after : List Token} {c : Token} {d : Char}
    (hscan : scan cs = front ++ (left ++ c :: after))
    (hterm : ∀ t ∈ scan cs, t.kind ≠ .unterminatedString ∧ t ≠ backslash)
    (hfront : ∀ t, front.getLast? = some t → t.kind ≠ .comment)
    (hleft : ∀ t, left.getLast? = some t → t.kind.isAtomic ∨ t.kind.glyph?.isSome)
    (hd : c.kind.glyph? = some d)
    (hafter : ∀ e, (after.flatMap text).head? = some e → endsSymbol e) :
    scan (front.flatMap text ++ d :: (left.flatMap text ++ after.flatMap text)) =
      front ++ ⟨c.kind, [d]⟩ :: (left ++ after) := by
  have hmem : ∀ t, t ∈ front ∨ t ∈ left ∨ t = c ∨ t ∈ after → t ∈ scan cs := by
    intro t ht
    rw [hscan]
    simpa using ht
  have hbehind := scan_behind hscan fun t ht => (hterm t (hmem t (.inl ht))).1
  have hrest : scan (after.flatMap text) = after := by
    have hsplit : scan cs = (front ++ (left ++ [c])) ++ after := by
      rw [hscan]
      simp
    exact scan_behind hsplit fun t ht =>
      (hterm t (by rw [hsplit]; exact List.mem_append_left _ ht)).1
  rw [List.flatMap_append] at hbehind
  obtain ⟨-, hleft⟩ := scan_ended hbehind (fun t ht => hterm t (hmem t (.inr (.inl ht)))) hleft
    hafter
  have htext : cs = front.flatMap text ++ (left ++ c :: after).flatMap text := by
    rw [← List.flatMap_append, ← hscan, scan_text]
  rw [htext] at hscan
  obtain ⟨-, hfinal⟩ := scan_delimiter hscan (fun t ht => hterm t (hmem t (.inl ht))) hfront hd
    (left.flatMap text ++ after.flatMap text)
  rw [hfinal, hleft, hrest]

/-- A token of trivia and a closer start with characters that `endsSymbol`. -/
theorem Token.Spelled.endsSymbol {k : Kind} {c : Char} {cs : List Char} (h : Spelled k (c :: cs))
    (hk : k.isTrivia ∨ k.isCloser) : endsSymbol c := by
  cases h with
  | whitespace hall => exact endsSymbol_of_isIdle (isIdle_of_isSpacing (hall c (by simp)))
  | blank hc => exact endsSymbol_of_isIdle (by rw [isIdle, hc]; rfl)
  | newline | returnNewline | comment => decide
  | delimiter hc => exact endsSymbol_of_isBracket (isBracket_of_glyph? hc)
  | string | unterminatedString | char | readerPrefix | symbol | backslash =>
    rcases hk with hk | hk <;> cases hk

/-- The text goes on at `n` with a character that `endsSymbol`, by the token that `leafAt?` finds
there. -/
theorem Document.endsSymbol_of_leafAt? {d : Document} {L R : List Token} {n : Nat}
    (hscan : scan d.text = L ++ R) (hn : n = widthOf L)
    (h : ∀ l ∈ d.leafAt? n, l.kind.isTrivia ∨ l.kind.isCloser) :
    ∀ e, (R.flatMap Token.text).head? = some e → endsSymbol e := by
  intro e he
  cases R with
  | nil => cases he
  | cons t R =>
    have hmem : t ∈ scan d.text := by
      rw [hscan]
      simp
    obtain ⟨a, as, has⟩ := List.exists_cons_of_ne_nil (Token.scan_text_ne_nil hmem)
    obtain ⟨l, -, hl, rfl, -⟩ := leafAt?_of_split hscan (Nat.le_refl _) (by rw [has]; simp)
    have hspelled : Token.Spelled l.kind l.token.text := Token.spelled_of_mem_scan hmem
    rw [has] at hspelled
    rw [List.flatMap_cons, has] at he
    rw [← Option.some.inj he]
    exact hspelled.endsSymbol (h l (hn ▸ hl))

namespace Form

variable {d : Document} {f : Form} {o c : Token} {xs us : List Tree} {bs rest : List Token}
  {k : Kind}

/-- Up to the form before the last one the inside of a collection does not end with a comment. -/
theorem EndsWith.front_ne_comment (h : f.EndsWith o xs bs k us c)
    (hrow : IsRow f.kind.ending? (c :: rest) (xs ++ (bs.map leaf ++ [node k us])))
    (htidy : ∀ e ∈ xs, Tidy e) :
    ∀ t, (o :: rowLeaves xs).getLast? = some t → t.kind ≠ .comment := by
  intro t ht
  rcases h.others with rfl | ⟨zs, j, vs, rfl, hj⟩
  · have ht : some o = some t := ht
    intro hcomment
    have hopener := h.brackets.opener
    rw [Option.some.inj ht, hcomment] at hopener
    cases hopener
  · rw [List.append_assoc] at hrow
    rcases hrow.isForm_of_split with ⟨-, rfl⟩ | hform
    · cases hj
    · have hwhole : Whole (node j vs) := fun k ts hhas =>
        ((htidy (node j vs) (by simp)).sound k ts hhas).2
      obtain ⟨a, as, rfl, -⟩ := hform.exists_leaf
      have hleaves : o :: rowLeaves (zs ++ [node j (leaf a :: as)]) =
          (o :: rowLeaves zs) ++ rowLeaves (leaf a :: as) := by
        simp [rowLeaves, leaves]
      rw [hleaves, List.getLast?_append_of_ne_nil _ (by simp [rowLeaves, leaves])] at ht
      exact hform.last_ne_comment hwhole t ht

/-- The form behind the tokens after a collection is its `next?` one. -/
theorem Followed.exists_next? {f b : Form} {pre ys post : List Tree}
    (h : f.Followed b pre (bs.map leaf ++ [node k us]) post) (hplaced : Placed d.tree f)
    (hbrackets : f.Brackets o ys c) (hk : k.isForm) :
    ∃ g, f.next? = some g ∧ g.stop = f.stop + (widthOf bs + rowWidth us) := by
  obtain ⟨-, -, -, -, -, -, hstop⟩ :=
    hplaced.exists_followed (Kind.isForm_of_isCollection hbrackets.isCollection)
  have hstart := hplaced.outermost_start_le.2
  have hlt := hbrackets.stop_eq
  refine ⟨_, h.next?_eq hk (by omega), ?_⟩
  show f.outermost.stop + widthOf bs + rowWidth us = _
  rw [hstop, Nat.add_assoc]

/-- **A collection leaves its last form behind.**  The text with its closer before that form has the
collection in the same place, with the form as the next one. -/
theorem Placed.exists_shed (h : Placed d.tree f) (hends : f.EndsWith o xs bs k us c)
    (hrow : IsRow f.kind.ending? (c :: rest) (xs ++ (bs.map leaf ++ [node k us])))
    (htidy : ∀ e ∈ xs, Tidy e)
    (hterm : ∀ t ∈ scan d.text, t.kind ≠ .unterminatedString ∧ t ≠ Token.backslash)
    (hbare : Tree.endsBare (node k us) = false)
    (hafter : ∀ l ∈ d.leafAt? f.stop, l.kind.isTrivia ∨ l.kind.isCloser) :
    ∃ before passed after f', d.text = before ++ (passed ++ (f.closing ++ after)) ∧
      before.length = f.start + 1 + rowWidth xs ∧ f.stop = before.length + passed.length + 1 ∧
      Placed (Document.ofText (before ++ (f.closing ++ (passed ++ after)))).tree f' ∧
      f'.Brackets o xs c ∧ f'.kind = f.kind ∧ f'.start = f.start ∧
      ∃ g, f'.next? = some g ∧ g.stop = f'.stop + passed.length := by
  have hbrackets := hends.brackets
  have hk : f.kind.isForm := Kind.isForm_of_isCollection hbrackets.isCollection
  have hlast : IsForm (c :: rest) (node k us) := by
    have hsplit := hrow
    rw [← List.append_assoc] at hsplit
    rcases hsplit.isForm_of_split with ⟨-, rfl⟩ | hform
    · cases hends.isForm
    · exact hform
  obtain ⟨b, pre, post, -, -, hfollowed, -⟩ := h.exists_followed hk
  obtain ⟨root, around, L, R, b', hroot, hplaced, hfollowed', -, hleaves, hL, hrootLeaves⟩ :=
    h.trade hk hfollowed (by
      rw [hbrackets.children]
      exact Trade.shed hbrackets.opener hbrackets.closer hends.trivia hlast hbare)
  -- the tokens
  have hscan : scan d.text = (L ++ o :: rowLeaves xs) ++ ((bs ++ rowLeaves us) ++ c :: R) := by
    rw [← d.leaves_tree, hleaves, hbrackets.children]
    simp [rowLeaves, leaves]
  have hspelled : Token.Spelled c.kind c.text :=
    Token.spelled_of_mem_scan (by rw [hscan]; simp)
  obtain ⟨e, hc, hglyph, hclosing⟩ := hspelled.exists_glyph hbrackets.closer
  have hfront : ∀ t, (L ++ o :: rowLeaves xs).getLast? = some t → t.kind ≠ .comment := by
    intro t ht
    rw [List.getLast?_append_of_ne_nil _ (by simp)] at ht
    exact hends.front_ne_comment hrow htidy t ht
  have hstarts : ∀ e, (R.flatMap Token.text).head? = some e → endsSymbol e := by
    have hsplit : scan d.text = (L ++ rowLeaves f.children) ++ R := by
      rw [← d.leaves_tree, hleaves, rowLeaves, List.nil_append, List.append_assoc]
    refine Document.endsSymbol_of_leafAt? hsplit ?_ hafter
    rw [f.stop_eq, hL, Token.widthOf_append, rowWidth_eq_widthOf]
  have hscan' := Token.scan_shed hscan hterm hfront
    (hlast.last_of_endsBare (by simp) hbare bs) hglyph hstarts
  -- the tree
  have hread : (Document.ofText ((L ++ o :: rowLeaves xs).flatMap Token.text ++
      (f.closing ++ ((bs ++ rowLeaves us).flatMap Token.text ++ R.flatMap Token.text)))).tree =
      root := by
    rw [show f.closing = [e] from hclosing]
    refine Document.tree_ofText hroot (hscan'.trans ?_)
    rw [hrootLeaves, ← hc]
    simp [rowLeaves, leaves]
  rw [← hread] at hplaced
  have hbrackets' : (ofNode f.kind f.start (leaf o :: (xs ++ [leaf c])) around).Brackets o xs c :=
    ⟨rfl, hbrackets.opener, hbrackets.closer, hbrackets.opener_length, hbrackets.closer_length⟩
  obtain ⟨g, hnext, hgstop⟩ := hfollowed'.exists_next? hplaced hbrackets' hends.isForm
  have hpassed : ((bs ++ rowLeaves us).flatMap Token.text).length = widthOf bs + rowWidth us := by
    rw [rowWidth_eq_widthOf, ← Token.widthOf_append]
    rfl
  have hbefore : ((L ++ o :: rowLeaves xs).flatMap Token.text).length =
      f.start + 1 + rowWidth xs := by
    have hol := hbrackets.opener_length
    have hL : f.start = (L.flatMap Token.text).length := hL
    rw [rowWidth_eq, hL]
    simp only [List.flatMap_append, List.flatMap_cons, List.length_append]
    omega
  refine ⟨(L ++ o :: rowLeaves xs).flatMap Token.text, (bs ++ rowLeaves us).flatMap Token.text,
    R.flatMap Token.text, _, ?_, hbefore, ?_, hplaced, hbrackets', rfl, rfl, g, hnext, ?_⟩
  · rw [← Token.scan_text d.text, hscan, hc, show f.closing = [e] from hclosing]
    simp
  · rw [hbrackets.stop_eq, hbefore, hpassed]
    simp only [rowWidth_append, rowWidth, width, rowWidth_eq_widthOf (bs.map leaf),
      rowLeaves_map_leaf]
    omega
  · rw [hgstop, hpassed]

end Form

/-! ### Barfing and slurping -/

/-- A text is moved back before another one. -/
theorem Makes.moved_back (before moved passed after : List Char) :
    Makes (before ++ (passed ++ (moved ++ after)))
      [.deletion (before.length + passed.length) moved.length, .insertion before.length moved]
      (before ++ (moved ++ (passed ++ after))) := by
  refine .deletion (before ++ passed) moved after (by simp) (by simp) rfl ?_
  refine .insertion before (passed ++ after) (by simp) rfl ?_
  exact .nil _

/-- The text `moved`, behind `passed`, is moved to the front of it. -/
theorem Text.rearranged {cs before passed moved after : List Char} {n m s : Nat}
    (h : cs = before ++ (passed ++ (moved ++ after))) (hn : n = before.length)
    (hm : m = before.length + passed.length)
    (hs : s = before.length + passed.length + moved.length) :
    cs.take n ++ (moved ++ (slice cs n m ++ cs.drop s)) =
      before ++ (moved ++ (passed ++ after)) := by
  have htake : cs.take n = before := by rw [h, hn, List.take_left]
  have hslice : slice cs n m = passed := by
    rw [slice, h, hn, hm, ← List.append_assoc, ← List.length_append, List.take_left,
      List.drop_left]
  have hdrop : cs.drop s = after := by
    rw [h, hs, ← List.length_append, ← List.append_assoc, ← List.append_assoc,
      ← List.length_append, List.drop_left]
  rw [htake, hslice, hdrop]

namespace Document

variable {d : Document} {offset : Nat} {f last : Form}

/-- A collection that keeps its row up to an offset is the one that `innermost?` finds there
still. -/
theorem innermost?_of_shorter {d' : Document} {f' : Form} {o o' c c' : Token} {xs ys : List Tree}
    (hf : d.innermost? offset = some f) (hbrackets : f.Brackets o (xs ++ ys) c)
    (hplaced : Form.Placed d'.tree f') (hbrackets' : f'.Brackets o' xs c')
    (hstart : f'.start = f.start) (hoffset : offset ≤ f.start + 1 + rowWidth xs) :
    d'.innermost? offset = some f' := by
  obtain ⟨-, -, hholds, hinside⟩ := innermost?_eq_some hf
  refine hplaced.innermost?_of_holds hbrackets'.isCollection ?_ fun e he hcollection hheld => ?_
  · have hbounds := (hbrackets.holds_iff offset).mp hholds
    rw [hbrackets'.holds_iff, hbrackets'.stop_eq, hstart]
    omega
  · rw [hbrackets'.rowWithin_children, hstart] at he
    obtain ⟨e', he', hsite⟩ := Form.exists_mem_rowWithin_of_mem he (f.toSite :: f.around)
    obtain ⟨hkinds, hsame⟩ := Form.holds_congr hsite offset
    refine hinside e' ?_ (hkinds.trans hcollection) (hsame.trans hheld)
    rw [hbrackets.rowWithin_children, Form.rowWithin_append]
    exact List.mem_append_left _ he'

/-- Barfing forward at an offset that is not past the `barfPoint`, the new place of the closer. -/
theorem barf?_of_innermost? (hf : d.innermost? offset = some f) (hclosed : f.isClosed)
    (hlast : f.forms.getLast? = some last) (hoffset : offset ≤ f.barfPoint) :
    d.barf? offset false = some ⟨[.deletion f.innerStop f.closing.length,
      .insertion f.barfPoint f.closing], offset⟩ := by
  have hsome : ¬(!f.isClosed || f.forms.isEmpty) := by
    rw [hclosed]
    cases hforms : f.forms with
    | nil =>
      rw [hforms] at hlast
      cases hlast
    | cons => simp
  rw [barf?, hf]
  show (if _ then none else if _ then _ else some (Edit.mk [.deletion f.innerStop f.closing.length,
    .insertion f.barfPoint f.closing] (if f.barfPoint < offset then offset + 1 else offset))) = _
  rw [if_neg hsome, if_neg Bool.false_ne_true, if_neg (Nat.not_lt.mpr hoffset)]

/-- **Slurping undoes barfing.**  Barfing moves the closer of the innermost collection before its
last form, and slurping at the caret that it leaves moves it back.  The text has to be balanced, and
no backslash may wait for a character.  The closer has to come right behind the last form, which
must not end with a bare prefix, and behind the closer trivia, another closer or the end of the
text.  The offset must not be past the new place of the closer. -/
theorem slurp_undoes_barf (hbalanced : Balanced d.text)
    (hback : ∀ t ∈ scan d.text, t ≠ Token.backslash) (hf : d.innermost? offset = some f)
    (hlast : f.forms.getLast? = some last) (hstop : last.stop = f.innerStop)
    (hbare : last.endsBare = false)
    (hafter : ∀ l ∈ d.leafAt? f.stop, l.kind.isTrivia ∨ l.kind.isCloser)
    (hoffset : offset ≤ f.barfPoint) :
    ∃ b barfed s, d.barf? offset false = some b ∧ Makes d.text b.changes barfed ∧
      barfed = d.text.take f.barfPoint ++ (f.closing ++
        (slice d.text f.barfPoint f.innerStop ++ d.text.drop f.stop)) ∧
      (ofText barfed).slurp? b.caret false = some s ∧ Makes barfed s.changes d.text := by
  obtain ⟨hmem, hk, -⟩ := innermost?_eq_some hf
  have hplaced := placed_of_mem_nodes hmem
  obtain ⟨o, xs, bs, c, rest, hends, hrow, htidy⟩ :=
    hplaced.exists_endsWith hbalanced hk hlast hstop
  have hbrackets := hends.brackets
  have hterm : ∀ t ∈ scan d.text, t.kind ≠ .unterminatedString ∧ t ≠ Token.backslash :=
    fun t ht => ⟨hbalanced.2 t ht, hback t ht⟩
  obtain ⟨before, passed, after, f', htext, hbefore, hfstop, hplaced', hbrackets', hkind, hstart, g,
      hnext, hgstop⟩ :=
    hplaced.exists_shed hends hrow (fun e he => htidy e (by simp [he])) hterm hbare hafter
  have hpoint : f.barfPoint = before.length := hends.barfPoint_eq.trans hbefore.symm
  have hclosing : f'.closing = f.closing := congrArg Kind.closing hkind
  have hlength : f.closing.length = 1 := hbrackets.closing_length
  have hf'stop : f'.stop = before.length + 1 := by
    rw [hbrackets'.stop_eq, hstart, hbefore]
  have hinner : f.innerStop = before.length + passed.length := by
    rw [Form.innerStop, if_pos hbrackets.isClosed, hfstop, hlength]
    rfl
  have hinnermost : (ofText (before ++ (f.closing ++ (passed ++ after)))).innermost? offset =
      some f' :=
    innermost?_of_shorter hf hbrackets hplaced' hbrackets' hstart
      (hoffset.trans hends.barfPoint_eq.le)
  have hfind : ((ofText (before ++ (f.closing ++ (passed ++ after)))).outward offset).find?
      (fun f => f.isClosed && f.next?.isSome) = some f' := by
    rw [outward, hinnermost]
    exact List.find?_cons_of_pos (by rw [hbrackets'.isClosed, hnext]; rfl)
  refine ⟨_, before ++ (f.closing ++ (passed ++ after)), _,
    barf?_of_innermost? hf hbrackets.isClosed hlast hoffset, ?_, ?_,
    slurp?_of_find? hfind hnext, ?_⟩
  · show Makes d.text [.deletion f.innerStop f.closing.length, .insertion f.barfPoint f.closing] _
    rw [hinner, hpoint, htext]
    exact .moved_back before f.closing passed after
  · rw [rearranged htext hpoint hinner (by omega)]
  · show Makes _ (adopt f' g false) _
    rw [adopt_forward hbrackets'.isCollection hf'stop hgstop, hclosing, htext]
    exact .moved_on before f.closing passed after

/-- A vector with a prefix in a list, with a closer in the comment before its last form.  The offset
is right where the closer goes. -/
theorem slurp_undoes_barf_comment :
    let d := ofText "(f #'[(b) ; ]\n 'c])".toList
    Balanced d.text ∧ (∀ t ∈ scan d.text, t ≠ Token.backslash) ∧
      ∃ f last, d.innermost? 9 = some f ∧ f.forms.getLast? = some last ∧
        last.stop = f.innerStop ∧ last.endsBare = false ∧
        (∀ l ∈ d.leafAt? f.stop, l.kind.isTrivia ∨ l.kind.isCloser) ∧ 9 ≤ f.barfPoint ∧
        d.barf? 9 false = some ⟨[.deletion 17 1, .insertion 9 [']']], 9⟩ ∧
        ∃ b barfed s, d.barf? 9 false = some b ∧ Makes d.text b.changes barfed ∧
          barfed = d.text.take f.barfPoint ++ (f.closing ++
            (slice d.text f.barfPoint f.innerStop ++ d.text.drop f.stop)) ∧
          (ofText barfed).slurp? b.caret false = some s ∧ Makes barfed s.changes d.text := by
  intro d
  have hbalanced : Balanced d.text := by decide +kernel
  have hback : ∀ t ∈ scan d.text, t ≠ Token.backslash := by decide +kernel
  have hbarf : d.barf? 9 false = some ⟨[.deletion 17 1, .insertion 9 [']']], 9⟩ := by
    decide +kernel
  have hfound : (d.innermost? 9).any (fun f => f.forms.getLast?.any (fun last =>
      last.stop = f.innerStop ∧ last.endsBare = false ∧
        (∀ l ∈ d.leafAt? f.stop, l.kind.isTrivia ∨ l.kind.isCloser) ∧ 9 ≤ f.barfPoint)) := by
    decide +kernel
  cases hf : d.innermost? 9 with
  | none =>
    rw [hf] at hfound
    cases hfound
  | some f =>
    rw [hf, Option.any_some] at hfound
    cases hlast : f.forms.getLast? with
    | none =>
      rw [hlast] at hfound
      cases hfound
    | some last =>
      rw [hlast] at hfound
      obtain ⟨hstop, hbare, hafter, hoffset⟩ := of_decide_eq_true hfound
      exact ⟨hbalanced, hback, f, last, rfl, hlast, hstop, hbare, hafter, hoffset, hbarf,
        slurp_undoes_barf hbalanced hback hf hlast hstop hbare hafter hoffset⟩

end Document

end SexpEdit
