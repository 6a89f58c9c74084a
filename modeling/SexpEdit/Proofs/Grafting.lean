/-
One form in the place of another.

The rules of the grammar look at the tokens after a tree in two places: a collection without its
closer has none after it, and a prefix without a form has none, a closer or a comment after it.  A
form starts with another token than these.  So a form may be replaced by any other tree that is a
form with the same tokens after it, and the document around it is a document still.

* `IsForm.congr_rest` — where a form may stand when other tokens come after it;
* `Form.Placed.graft` — a placed node gives way to another one, and all around it stays;
* `yields_delimited` — delimiters around a form make a form, if every collection in it is closed.
-/
import SexpEdit.Proofs.Extent

namespace SexpEdit

open SexpEdit.Tree
open Token (widthOf)

/-- Every collection in the tree `isClosed`. -/
def Tree.Whole (t : Tree) : Prop :=
  ∀ k ts, Has (.node k ts) t → k.isCollection → (Form.ofNode k 0 ts []).isClosed

theorem Tree.Whole.child {k : Kind} {ts : List Tree} (h : Whole (.node k ts)) {t : Tree}
    (ht : t ∈ ts) : Whole t :=
  fun j us hj => h j us (.child ht hj)

namespace Grammar

/-! ### The tokens after a form -/

theorem IsForm.startsForm {rest : List Token} {t : Tree} (h : IsForm rest t) (more : List Token) :
    StartsForm (t.leaves ++ more) := by
  obtain ⟨k, ts, rfl⟩ := h.exists_node
  obtain ⟨a, us, rfl, ha⟩ := h.exists_leaf
  exact ha

/-- A form that is `Whole` does not end with a comment. -/
theorem IsForm.exists_last {rest : List Token} {t : Tree} :
    IsForm rest t → t.Whole → ∃ ts u, t.leaves = ts ++ [u] ∧ u.kind ≠ .comment
  | @IsForm.atom _ u hu, _ => by
    refine ⟨[], u, rfl, ?_⟩
    intro hcomment
    rw [hcomment] at hu
    cases hu
  | @IsForm.closed _ o c k es ho hc _, _ => by
    refine ⟨o :: rowLeaves es, c, by simp [leaves, rowLeaves], ?_⟩
    intro hcomment
    have hcloser := Kind.isCloser_of_ending? hc
    rw [hcomment] at hcloser
    cases hcloser
  | @IsForm.unclosed o k es ho hes, hwhole =>
    absurd (hwhole k _ .self (Kind.isCollection_of_collection? ho)) (hes.not_isClosed ho)
  | @IsForm.prefixed _ p bs t _ _ ht, hwhole => by
    obtain ⟨ts, u, hleaves, hu⟩ := ht.exists_last (hwhole.child (by simp))
    exact ⟨p :: (bs ++ ts), u, by simp [leaves, rowLeaves, hleaves], hu⟩
  | @IsForm.dangling _ p bs hp hbs _, _ => by
    have hkinds : ∀ u ∈ p :: bs, u.kind ≠ .comment := by
      intro u hu hcomment
      rcases List.mem_cons.mp hu with rfl | hu
      · rw [hcomment] at hp
        cases hp
      · have hb := hbs u hu
        rw [hcomment] at hb
        rcases hb with hb | hb <;> cases hb
    rcases List.eq_nil_or_concat' (p :: bs) with hnil | ⟨ts, u, hts⟩
    · cases hnil
    · exact ⟨ts, u, by simp [leaves, rowLeaves, ← hts], hkinds u (by simp [hts])⟩

theorem StartsForm.not_noOperand {ts : List Token} (h : StartsForm ts) : ¬NoOperand ts := by
  cases ts with
  | nil => exact h.elim
  | cons t ts =>
    obtain ⟨htrivia, hcloser⟩ := h
    rintro (hbad | hbad)
    · rw [hbad] at hcloser
      cases hcloser
    · rw [hbad] at htrivia
      cases htrivia

theorem NoOperand.append_congr {us us' : List Token} (h : NoOperand us → NoOperand us') :
    ∀ ts : List Token, NoOperand (ts ++ us) → NoOperand (ts ++ us')
  | [], hts => h hts
  | _ :: _, hts => hts

mutual

/-- A form stays one when other tokens come after it, if a prefix may stand without a form before
these too. At the end of the text it has to be `Whole`. -/
theorem IsForm.congr_rest {rest rest' : List Token} {t : Tree} : IsForm rest t →
    (rest = [] → t.Whole) → (NoOperand rest → NoOperand rest') → IsForm rest' t
  | .atom ht, _, _ => .atom ht
  | .closed ho hc hes, _, _ =>
    .closed ho hc (hes.congr_rest (fun h => by cases h) fun h => h)
  | @IsForm.unclosed o k es ho hes, hwhole, _ =>
    absurd (hwhole rfl k _ .self (Kind.isCollection_of_collection? ho)) (hes.not_isClosed ho)
  | .prefixed hp hbs ht, hwhole, hno =>
    .prefixed hp hbs (ht.congr_rest (fun h => (hwhole h).child (by simp)) hno)
  | .dangling hp hbs hrest, _, hno => .dangling hp hbs (hno hrest)

theorem IsRow.congr_rest {inner : Option Kind} {rest rest' : List Token} {ts : List Tree} :
    IsRow inner rest ts → (rest = [] → ∀ t ∈ ts, t.Whole) → (NoOperand rest → NoOperand rest') →
      IsRow inner rest' ts
  | .nil, _, _ => .nil
  | .trivia ht hts, hwhole, hno =>
    .trivia ht (hts.congr_rest (fun h u hu => hwhole h u (by simp [hu])) hno)
  | .error ht hne hts, hwhole, hno =>
    .error ht hne (hts.congr_rest (fun h u hu => hwhole h u (by simp [hu])) hno)
  | @IsRow.form _ _ t ts ht hts, hwhole, hno =>
    .form (ht.congr_rest (fun h => hwhole (List.append_eq_nil_iff.mp h).2 t (by simp))
      (NoOperand.append_congr hno (rowLeaves ts)))
      (hts.congr_rest (fun h u hu => hwhole h u (by simp [hu])) hno)

end

/-! ### Replacing a form -/

/-- The tree `t`, which is no stray closer, may give way to `t'`: wherever the first is a form or a
document, the second is too. -/
structure Yields (t t' : Tree) : Prop where
  not_stray : ∀ u, t ≠ .node .error [.leaf u]
  form : ∀ {rest : List Token}, IsForm rest t → IsForm rest t'
  document : IsDocument t → IsDocument t'

theorem IsRow.replace {inner : Option Kind} {rest : List Token} {k : Kind}
    {us pre post : List Tree} {t' : Tree} (hy : Yields (.node k us) t')
    (h : IsRow inner rest (pre ++ .node k us :: post)) : IsRow inner rest (pre ++ t' :: post) := by
  induction pre with
  | nil =>
    cases h with
    | @error _ _ u => exact absurd rfl (hy.not_stray u)
    | form ht hts => exact .form (hy.form ht) hts
  | cons u pre ih =>
    rw [List.cons_append] at h ⊢
    cases h with
    | trivia hu hts => exact .trivia hu (ih hts)
    | error hu hne hts => exact .error hu hne (ih hts)
    | form hu hts =>
      refine .form ?_ (ih hts)
      have hform : IsForm (rowLeaves post ++ rest) (.node k us) := by
        rcases hts.isForm_of_split with ⟨⟨u, rfl⟩, rfl⟩ | hform
        · exact absurd rfl (hy.not_stray u)
        · exact hform
      have hafter : ∀ t, rowLeaves (pre ++ t :: post) ++ rest =
          rowLeaves pre ++ (leaves t ++ (rowLeaves post ++ rest)) := by
        intro t
        rw [rowLeaves_append, rowLeaves, List.append_assoc, List.append_assoc]
      have hstarts := hform.startsForm (rowLeaves post ++ rest)
      rw [hafter] at hu ⊢
      -- a form comes after `u`, so `u` was not cut off by the end of the text, and what is right
      -- behind a prefix without a form is a closer or a comment before that form, which stays
      refine hu.congr_rest ?_ (NoOperand.append_congr ?_ _)
      · intro hnil
        rw [(List.append_eq_nil_iff.mp hnil).2] at hstarts
        exact hstarts.elim
      · intro hno
        exact absurd hno hstarts.not_noOperand

theorem IsForm.replace {rest : List Token} {j k : Kind} {us pre post : List Tree} {t' : Tree}
    (hy : Yields (.node k us) t') (h : IsForm rest (.node j (pre ++ .node k us :: post))) :
    IsForm rest (.node j (pre ++ t' :: post)) := by
  obtain ⟨o, xs, rfl, hcases⟩ := h.cases_of_split
  rcases hcases with
    ⟨ho, c, ys, rfl, hc, hrow⟩ | ⟨ho, rfl, hrow⟩ | ⟨ho, rfl, rfl, bs, rfl, hbs, hform⟩
  · have hclosed : IsForm rest (.node j (.leaf o :: ((xs ++ t' :: ys) ++ [.leaf c]))) :=
      .closed ho hc (hrow.replace hy)
    simpa using hclosed
  · exact .unclosed ho (hrow.replace hy)
  · exact .prefixed ho hbs (hy.form hform)

/-- A node with a form in it replaced by one it `Yields` to stands where the node stood. -/
theorem Yields.node {j k : Kind} {us pre post : List Tree} {t' : Tree}
    (hy : Yields (.node k us) t') :
    Yields (.node j (pre ++ .node k us :: post)) (.node j (pre ++ t' :: post)) where
  not_stray u hu := by
    have hchildren := (Tree.node.inj hu).2
    cases pre <;> simp at hchildren
  form h := h.replace hy
  document h := by
    obtain ⟨ts, hts, hrow⟩ := h
    obtain ⟨rfl, rfl⟩ := Tree.node.inj hts
    exact ⟨_, rfl, hrow.replace hy⟩

/-! ### Delimiters around a form -/

/-- Delimiters around a form make a collection, if the form is `Whole`. -/
theorem yields_delimited {o c : Token} {j k : Kind} {us : List Tree}
    (ho : o.kind.collection? = some j) (hc : j.ending? = some c.kind)
    (hwhole : Whole (.node k us)) (hk : k.isForm) :
    Yields (.node k us) (.node j [.leaf o, .node k us, .leaf c]) where
  not_stray u hu := by
    obtain ⟨rfl, -⟩ := Tree.node.inj hu
    cases hk
  form {rest} h := by
    have hform : IsForm (c :: rest) (.node k us) := by
      refine h.congr_rest (fun _ => hwhole) fun _ => .inl ?_
      exact Kind.isCloser_of_ending? hc
    have hrow : IsRow j.ending? (c :: rest) [.node k us] := .form hform .nil
    exact .closed ho hc hrow
  document h := by
    obtain ⟨ts, hts, -⟩ := h
    obtain ⟨rfl, -⟩ := Tree.node.inj hts
    cases hk

end Grammar

namespace Form

open Grammar

/-- **A node gives way to another one.** If the old node `Yields` to the new one, there is a
document with it at the same offset and with the same tokens before and after it. -/
theorem Placed.graft {root : Tree} {f : Form} (h : Placed root f) (hroot : IsDocument root) :
    ∀ {k : Kind} {us : List Tree}, Yields (.node f.kind f.children) (.node k us) →
      ∃ root' around L R, IsDocument root' ∧ Placed root' (ofNode k f.start us around) ∧
        root.leaves = L ++ (rowLeaves f.children ++ R) ∧ f.start = widthOf L ∧
        root'.leaves = L ++ (rowLeaves us ++ R) := by
  induction h with
  | @root j ts hnode =>
    intro k us hy
    subst hnode
    refine ⟨.node k us, [], [], [], hy.document hroot, .root rfl, ?_, rfl, ?_⟩
    · show rowLeaves ts = [] ++ (rowLeaves ts ++ [])
      simp
    · show rowLeaves us = [] ++ (rowLeaves us ++ [])
      simp
  | @child p j ts pre post _ hsplit ih =>
    intro k us hy
    -- the node around it changes in one place, and may stand where it stood
    have hparent : Yields (.node p.kind p.children) (.node p.kind (pre ++ .node k us :: post)) := by
      rw [hsplit]
      exact hy.node
    obtain ⟨root', around, L, R, hroot', hp, hleaves, hstart, hleaves'⟩ := ih hparent
    have hchild := @Placed.child root' (ofNode p.kind p.start (pre ++ .node k us :: post) around)
      k us pre post hp rfl
    have hrow : ∀ (k : Kind) (us : List Tree), L ++ (rowLeaves (pre ++ .node k us :: post) ++ R) =
        (L ++ rowLeaves pre) ++ (rowLeaves us ++ (rowLeaves post ++ R)) := by
      intro k us
      simp [rowLeaves, leaves]
    refine ⟨root', _, L ++ rowLeaves pre, rowLeaves post ++ R, hroot', hchild, ?_, ?_, ?_⟩
    · rw [hleaves, hsplit, hrow]
      rfl
    · show p.start + rowWidth pre = _
      rw [hstart, Token.widthOf_append, rowWidth_eq_widthOf]
    · rw [hleaves', hrow]

end Form

end SexpEdit
