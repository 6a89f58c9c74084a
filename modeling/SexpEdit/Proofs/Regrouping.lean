/-
A collection and the trees after it.

When a closer moves, a collection takes in trees that came after it, or leaves trees behind it.  The
collection then stands before other tokens, and so do the prefixes on it; the rest of the row of its
container stays as it is.  What may trouble this is a prefix without a form: it goes on to the next
form, unless a closer or a comment comes first.

* `Tree.endsBare` — whether a tree ends with a prefix without a form;
* `IsForm.anywhere` — a form that does not end so may stand before any tokens;
* `Form.Followed` — a form with its prefixes in the row of its container, and the trees after it;
* `Form.Placed.trade`, `Form.Placed.trade_at` — a form and the trees after it give way to others;
* `Form.Followed.next?_eq` — the next form comes behind the tokens after the collection.
-/
import SexpEdit.Proofs.Grafting

namespace SexpEdit

open SexpEdit.Tree
open Token (widthOf)

namespace Tree

mutual

/-- Whether the tree ends with a prefix that has no form: it is a prefix without a form, or one on a
tree that ends so. -/
def endsBare : Tree → Bool
  | .leaf _ => false
  | .node k ts => k == .prefixed && rowEndsBare ts

/-- Whether the first node of a row `endsBare`, or there is none. -/
def rowEndsBare : List Tree → Bool
  | [] => true
  | .leaf _ :: ts => rowEndsBare ts
  | .node k us :: _ => endsBare (node k us)

end

theorem rowEndsBare_leaves (bs : List Token) (ts : List Tree) :
    rowEndsBare (bs.map leaf ++ ts) = rowEndsBare ts := by
  induction bs with
  | nil => rfl
  | cons b bs ih => rw [List.map_cons, List.cons_append, rowEndsBare, ih]

theorem endsBare_dangling (p : Token) (bs : List Token) :
    endsBare (node .prefixed (leaf p :: bs.map leaf)) = true := by
  have hrow := rowEndsBare_leaves bs []
  rw [List.append_nil] at hrow
  rw [endsBare, rowEndsBare, hrow]
  rfl

theorem endsBare_operand (p : Token) (bs : List Token) (k : Kind) (us : List Tree) :
    endsBare (node .prefixed (leaf p :: (bs.map leaf ++ [node k us]))) =
      endsBare (node k us) := by
  rw [endsBare, rowEndsBare, rowEndsBare_leaves, rowEndsBare]
  rfl

theorem endsBare_of_not_isForm {k : Kind} (hk : ¬k.isForm) (us : List Tree) :
    endsBare (node k us) = false := by
  rw [endsBare, Bool.and_eq_false_iff]
  refine .inl (beq_false_of_ne ?_)
  rintro rfl
  exact hk rfl

end Tree

/-- Whether the form ends with a prefix that has no form, as a tree by `Tree.endsBare`. -/
def Form.endsBare (f : Form) : Bool :=
  (Tree.node f.kind f.children).endsBare

namespace Grammar

/-! ### Rows in parts -/

/-- Two `IsRow`s make one when the first stands before the second. -/
theorem isRow_append {inner : Option Kind} {rest : List Token} {ts us : List Tree} :
    IsRow inner rest (ts ++ us) ↔ IsRow inner (rowLeaves us ++ rest) ts ∧ IsRow inner rest us := by
  induction ts with
  | nil => exact ⟨fun h => ⟨.nil, h⟩, And.right⟩
  | cons t ts ih =>
    have hleaves : rowLeaves (ts ++ us) ++ rest = rowLeaves ts ++ (rowLeaves us ++ rest) := by
      rw [rowLeaves_append, List.append_assoc]
    rw [List.cons_append]
    constructor
    · intro h
      cases h with
      | trivia ht hts => exact ⟨.trivia ht (ih.mp hts).1, (ih.mp hts).2⟩
      | error ht hne hts => exact ⟨.error ht hne (ih.mp hts).1, (ih.mp hts).2⟩
      | form ht hts =>
        rw [hleaves] at ht
        exact ⟨.form ht (ih.mp hts).1, (ih.mp hts).2⟩
    · rintro ⟨h, hus⟩
      cases h with
      | trivia ht hts => exact .trivia ht (ih.mpr ⟨hts, hus⟩)
      | error ht hne hts => exact .error ht hne (ih.mpr ⟨hts, hus⟩)
      | form ht hts =>
        refine .form ?_ (ih.mpr ⟨hts, hus⟩)
        rw [hleaves]
        exact ht

theorem IsRow.tail {inner : Option Kind} {rest : List Token} {t : Tree} {ts : List Tree}
    (h : IsRow inner rest (t :: ts)) : IsRow inner rest ts := by
  cases h <;> assumption

theorem isRow_leaves {inner : Option Kind} {rest bs : List Token} (h : ∀ b ∈ bs, b.kind.isTrivia) :
    IsRow inner rest (bs.map leaf) := by
  induction bs with
  | nil => exact .nil
  | cons b bs ih => exact .trivia (h b (by simp)) (ih fun b' hb' => h b' (by simp [hb']))

/-- An `IsRow` of trivia has no nodes. -/
theorem IsRow.eq_leaves {inner : Option Kind} {rest : List Token} {ts : List Tree}
    (h : IsRow inner rest ts) (htrivia : ∀ t ∈ rowLeaves ts, t.kind.isTrivia) :
    ts = (rowLeaves ts).map leaf := by
  induction ts with
  | nil => rfl
  | cons t ts ih =>
    cases h with
    | @trivia _ _ u _ _ hts =>
      have hrest := ih hts fun v hv => htrivia v (by simp [rowLeaves, hv])
      rw [rowLeaves, leaves, List.singleton_append, List.map_cons, ← hrest]
    | @error _ _ u _ hu =>
      have hkind := htrivia u (by simp [rowLeaves, leaves])
      rw [(Kind.not_delimiter_of_isTrivia hkind).2] at hu
      cases hu
    | form ht =>
      have hstarts := ht.startsForm (rowLeaves ts)
      cases hleaves : t.leaves ++ rowLeaves ts with
      | nil =>
        rw [hleaves] at hstarts
        exact hstarts.elim
      | cons u us =>
        rw [hleaves] at hstarts
        have hkind := htrivia u (by rw [rowLeaves, hleaves]; exact List.mem_cons_self)
        rw [hstarts.1] at hkind
        cases hkind

/-! ### Forms that do not end with a bare prefix -/

/-- **A form that is not `endsBare` may stand before any tokens.** At the end of the text it has to
be `Whole`. -/
theorem IsForm.anywhere {rest rest' : List Token} {t : Tree} : IsForm rest t →
    (rest = [] → t.Whole) → t.endsBare = false → IsForm rest' t
  | .atom ht, _, _ => .atom ht
  | .closed ho hc hes, _, _ => .closed ho hc (hes.congr_rest (fun h => by cases h) fun h => h)
  | @IsForm.unclosed o k es ho hes, hwhole, _ =>
    absurd (hwhole rfl k _ .self (Kind.isCollection_of_collection? ho)) (hes.not_isClosed ho)
  | @IsForm.prefixed _ p bs t hp hbs ht, hwhole, hbare => by
    have hoperand : t.endsBare = false := by
      obtain ⟨k, us, rfl⟩ := ht.exists_node
      rw [endsBare_operand] at hbare
      exact hbare
    exact .prefixed hp hbs (ht.anywhere (fun h => (hwhole h).child (by simp)) hoperand)
  | @IsForm.dangling _ p bs _ _ _, _, hbare => by
    rw [endsBare_dangling] at hbare
    cases hbare

/-- A form that is not `endsBare` ends with an atom or a closer. -/
theorem IsForm.exists_last_of_endsBare {rest : List Token} {t : Tree} : IsForm rest t →
    rest ≠ [] → t.endsBare = false →
      ∃ ts u, t.leaves = ts ++ [u] ∧ (u.kind.isAtomic ∨ u.kind.isCloser)
  | @IsForm.atom _ u hu, _, _ => ⟨[], u, rfl, .inl hu⟩
  | @IsForm.closed _ o c k es ho hc _, _, _ =>
    ⟨o :: rowLeaves es, c, by simp [leaves, rowLeaves], .inr (Kind.isCloser_of_ending? hc)⟩
  | .unclosed _ _, hrest, _ => absurd rfl hrest
  | @IsForm.prefixed _ p bs t _ _ ht, hrest, hbare => by
    have hoperand : t.endsBare = false := by
      obtain ⟨k, us, rfl⟩ := ht.exists_node
      rw [endsBare_operand] at hbare
      exact hbare
    obtain ⟨ts, u, hleaves, hu⟩ := ht.exists_last_of_endsBare hrest hoperand
    exact ⟨p :: (bs ++ ts), u, by simp [leaves, rowLeaves, hleaves], hu⟩
  | @IsForm.dangling _ p bs _ _ _, _, hbare => by
    rw [endsBare_dangling] at hbare
    cases hbare

/-- A row whose last tree is not `endsBare` may stand before any tokens, if some came after it
already. -/
theorem IsRow.anywhere {inner : Option Kind} {rest rest' : List Token} {ts : List Tree}
    (h : IsRow inner rest ts) (hrest : rest ≠ [])
    (hlast : ∀ t, ts.getLast? = some t → t.endsBare = false) : IsRow inner rest' ts := by
  rcases List.eq_nil_or_concat' ts with rfl | ⟨ts, t, rfl⟩
  · exact .nil
  · have hbare := hlast t (List.getLast?_concat ..)
    obtain ⟨hts, ht⟩ := isRow_append.mp h
    have hboth : (∃ u us, rowLeaves [t] = u :: us) ∧ IsRow inner rest' [t] := by
      cases ht with
      | @trivia _ _ u _ hu => exact ⟨⟨u, [], rfl⟩, .trivia hu .nil⟩
      | @error _ _ u _ hu hne => exact ⟨⟨u, [], rfl⟩, .error hu hne .nil⟩
      | form ht =>
        have hstarts := ht.startsForm (rowLeaves [])
        refine ⟨?_, .form (ht.anywhere (fun h => absurd h hrest) hbare) .nil⟩
        cases hleaves : rowLeaves [t] with
        | nil =>
          rw [rowLeaves] at hleaves
          rw [hleaves] at hstarts
          exact hstarts.elim
        | cons u us => exact ⟨u, us, rfl⟩
    obtain ⟨⟨u, us, hleaves⟩, hlast⟩ := hboth
    refine isRow_append.mpr ⟨?_, hlast⟩
    rw [hleaves] at hts ⊢
    exact hts.congr_rest (fun h => by cases h) fun h => h

/-! ### A form and the trees after it -/

/-- A form with the trees `ys` after it may give way to another one with the trees `ys'` after
it. -/
structure Trade (ys ys' : List Tree) (t t' : Tree) : Prop where
  form : ∀ {rest : List Token}, IsForm (rowLeaves ys ++ rest) t → IsForm (rowLeaves ys' ++ rest) t'
  row : ∀ {inner : Option Kind} {rest : List Token}, IsRow inner rest ys → IsRow inner rest ys'
  ends : ∀ u, ys.getLast? ≠ some (leaf u)

namespace Trade

variable {ys ys' pre post us : List Tree} {k : Kind} {t' : Tree}

/-- A prefix on a form goes with it in a `Trade`. -/
theorem prefixed (h : Trade ys ys' (node k us) t') :
    Trade ys ys' (node .prefixed (pre ++ .node k us :: post))
      (node .prefixed (pre ++ t' :: post)) where
  form hform := by
    obtain ⟨o, xs, rfl, hcases⟩ := hform.cases_of_split
    rcases hcases with ⟨ho, -⟩ | ⟨ho, -⟩ | ⟨ho, -, rfl, bs, rfl, hbs, hoperand⟩
    · exact absurd rfl (Kind.ne_prefixed_of_collection? ho)
    · exact absurd rfl (Kind.ne_prefixed_of_collection? ho)
    · exact .prefixed ho hbs (h.form hoperand)
  row := h.row
  ends := h.ends

/-- What comes before and after a `Trade` in the row stays. -/
theorem isRow (h : Trade ys ys' (node k us) t') (hk : k.isForm) {inner : Option Kind}
    {rest : List Token} (hrow : IsRow inner rest (pre ++ .node k us :: (ys ++ post))) :
    IsRow inner rest (pre ++ t' :: (ys' ++ post)) := by
  obtain ⟨hpre, htail⟩ := isRow_append.mp hrow
  cases htail with
  | error => cases hk
  | form ht hts =>
    obtain ⟨hys, hpost⟩ := isRow_append.mp hts
    rw [rowLeaves_append, List.append_assoc] at ht
    have hstarts := ht.startsForm (rowLeaves (ys ++ post) ++ rest)
    refine isRow_append.mpr ⟨?_, .form ?_ (isRow_append.mpr ⟨h.row hys, hpost⟩)⟩
    · -- a form came after the row `pre`, so no prefix at its end was without one
      refine hpre.congr_rest ?_ ?_
      · intro hnil
        rw [rowLeaves, List.append_assoc] at hnil
        rw [hnil] at hstarts
        exact hstarts.elim
      · intro hno
        rw [rowLeaves, List.append_assoc] at hno
        exact absurd hno hstarts.not_noOperand
    · rw [rowLeaves_append, List.append_assoc]
      exact h.form ht

/-- The node around a `Trade` stands where it stood: it `Yields` to the new one. -/
theorem yields (h : Trade ys ys' (node k us) t') (hk : k.isForm) {j : Kind} (hj : j ≠ .prefixed) :
    Yields (node j (pre ++ .node k us :: (ys ++ post)))
      (node j (pre ++ t' :: (ys' ++ post))) where
  not_stray u hu := by
    have hchildren := (Tree.node.inj hu).2
    cases pre <;> simp at hchildren
  form {rest} hform := by
    obtain ⟨o, xs, rfl, hcases⟩ := hform.cases_of_split
    rcases hcases with ⟨ho, c, zs, hzs, hc, hrow⟩ | ⟨ho, rfl, hrow⟩ | ⟨-, rfl, -⟩
    · -- the closer is behind the trees that give way
      obtain ⟨post', rfl, rfl⟩ : ∃ post', post = post' ++ [leaf c] ∧ zs = ys ++ post' := by
        rcases List.eq_nil_or_concat' post with rfl | ⟨post', v, rfl⟩
        · refine absurd ?_ (h.ends c)
          rw [List.append_nil] at hzs
          rw [hzs, List.getLast?_concat]
        · rw [← List.append_assoc] at hzs
          obtain ⟨rfl, hv⟩ := List.append_inj' hzs rfl
          rw [List.cons.inj hv |>.1]
          exact ⟨post', rfl, rfl⟩
      have hclosed : IsForm rest
          (node j (leaf o :: ((xs ++ t' :: (ys' ++ post')) ++ [leaf c]))) :=
        .closed ho hc (h.isRow hk hrow)
      simpa using hclosed
    · exact .unclosed ho (h.isRow hk hrow)
    · exact absurd rfl hj
  document hdoc := by
    obtain ⟨ts, hts, hrow⟩ := hdoc
    obtain ⟨rfl, rfl⟩ := Tree.node.inj hts
    exact ⟨_, rfl, h.isRow hk hrow⟩

end Trade

end Grammar

namespace Form

open Grammar

/-- A form with the prefixes on it stands between `pre` and `ys` in the row of its container `c`. -/
structure Followed (f c : Form) (pre ys post : List Tree) : Prop where
  container : f.container? = some c
  children : c.children = pre ++ .node f.outermost.kind f.outermost.children :: (ys ++ post)
  start : f.outermost.start = c.start + rowWidth pre

section

variable {p c : Form} {k : Kind} {us pre post xs ys zs : List Tree}

theorem outermost_of_prefixed (hp : p.kind = .prefixed) (k : Kind) (us pre : List Tree) :
    (ofNode k (p.start + rowWidth pre) us (p.toSite :: p.around)).outermost = p.outermost :=
  if_pos hp

theorem outermost_of_not_prefixed (hp : p.kind ≠ .prefixed) (k : Kind) (us pre : List Tree) :
    (ofNode k (p.start + rowWidth pre) us (p.toSite :: p.around)).outermost =
      ofNode k (p.start + rowWidth pre) us (p.toSite :: p.around) :=
  if_neg hp

/-- What a prefix applies to is `Followed` by what the prefix is followed by. -/
theorem followed_of_prefixed (hp : p.kind = .prefixed) :
    (ofNode k (p.start + rowWidth pre) us (p.toSite :: p.around)).Followed c xs ys zs ↔
      p.Followed c xs ys zs := by
  have hout := outermost_of_prefixed hp k us pre
  constructor
  · rintro ⟨hcontainer, hchildren, hstart⟩
    rw [container?, hout] at hcontainer
    rw [hout] at hchildren hstart
    exact ⟨hcontainer, hchildren, hstart⟩
  · rintro ⟨hcontainer, hchildren, hstart⟩
    refine ⟨?_, ?_, ?_⟩
    · rw [container?, hout]
      exact hcontainer
    · rw [hout]
      exact hchildren
    · rw [hout]
      exact hstart

/-- Any other node of a row stands in that row itself. -/
theorem followed_of_not_prefixed (hp : p.kind ≠ .prefixed)
    (hsplit : p.children = pre ++ .node k us :: (ys ++ post)) :
    (ofNode k (p.start + rowWidth pre) us (p.toSite :: p.around)).Followed p pre ys post := by
  have hout := outermost_of_not_prefixed hp k us pre
  refine ⟨?_, ?_, ?_⟩
  · rw [container?, hout]
    rfl
  · rw [hout]
    exact hsplit
  · rw [hout]
    rfl

end

namespace Placed

variable {d : Document} {f : Form}

/-- What a prefix applies to comes last. -/
theorem eq_nil_of_prefixed {p : Form} (h : Placed d.tree p) (hp : p.kind = .prefixed) {k : Kind}
    {us pre post : List Tree} (hsplit : p.children = pre ++ .node k us :: post) : post = [] := by
  obtain ⟨rest, -, hform⟩ := h.exists_isForm (by rw [hp]; rfl)
  rw [hsplit] at hform
  obtain ⟨o, xs, -, hcases⟩ := hform.cases_of_split
  rcases hcases with ⟨ho, -⟩ | ⟨ho, -⟩ | ⟨-, -, hnil, -⟩
  · exact absurd hp (Kind.ne_prefixed_of_collection? ho)
  · exact absurd hp (Kind.ne_prefixed_of_collection? ho)
  · exact hnil

/-- A form stands in the row of a container, with the prefixes on it, and ends where `outermost`
does. -/
theorem exists_followed (h : Placed d.tree f) (hk : f.kind.isForm) :
    ∃ c pre post, Placed d.tree c ∧ c.kind ≠ .prefixed ∧ f.Followed c pre [] post ∧
      f.outermost.stop = f.stop := by
  induction h with
  | @root k ts hroot =>
    obtain ⟨us, htree, -⟩ := d.exists_row
    rw [htree] at hroot
    cases hroot
    cases hk
  | @child p k us pre post hp hsplit ih =>
    by_cases hprefixed : p.kind = .prefixed
    · obtain ⟨c, xs, zs, hc, hkind, hfollowed, hstop⟩ := ih (by rw [hprefixed]; rfl)
      refine ⟨c, xs, zs, hc, hkind, (followed_of_prefixed hprefixed).mpr hfollowed, ?_⟩
      obtain rfl := hp.eq_nil_of_prefixed hprefixed hsplit
      rw [outermost_of_prefixed hprefixed, hstop, p.stop_eq, hsplit, rowWidth_append]
      show _ = p.start + rowWidth pre + rowWidth us
      simp only [rowWidth, width]
      omega
    · exact ⟨p, pre, post, hp, hprefixed, followed_of_not_prefixed hprefixed hsplit,
        by rw [outermost_of_not_prefixed hprefixed]⟩

/-- **A form and the trees after it give way to others**, by a `Trade`. The tokens before and after
them stay. -/
theorem trade (h : Placed d.tree f) : ∀ {c : Form} {k : Kind} {us pre ys ys' post : List Tree},
    f.kind.isForm → f.Followed c pre ys post →
      Trade ys ys' (node f.kind f.children) (node k us) →
      ∃ root around L R c', IsDocument root ∧ Placed root (ofNode k f.start us around) ∧
        (ofNode k f.start us around).Followed c' pre ys' post ∧ c'.start = c.start ∧
        d.tree.leaves = L ++ (rowLeaves f.children ++ (rowLeaves ys ++ R)) ∧ f.start = widthOf L ∧
        root.leaves = L ++ (rowLeaves us ++ (rowLeaves ys' ++ R)) := by
  induction h with
  | root =>
    intro c k us pre ys ys' post _ hfollowed
    cases hfollowed.container
  | @child p j ts pre₀ post₀ hp hsplit ih =>
    intro c k us pre ys ys' post hk hfollowed htrade
    by_cases hprefixed : p.kind = .prefixed
    · -- the prefix goes with its form
      obtain rfl := hp.eq_nil_of_prefixed hprefixed hsplit
      have hparent : Trade ys ys' (node p.kind p.children)
          (node p.kind (pre₀ ++ [node k us])) := by
        rw [hsplit, hprefixed]
        exact htrade.prefixed
      obtain ⟨root, around, L, R, c', hroot, hplaced, hfollowed', hstart, hleaves, hL, hleaves'⟩ :=
        ih (by rw [hprefixed]; rfl) ((followed_of_prefixed hprefixed).mp hfollowed) hparent
      have hchild := @Placed.child root (ofNode p.kind p.start (pre₀ ++ [node k us]) around)
        k us pre₀ [] hplaced rfl
      have hrow : ∀ (k : Kind) (us zs : List Tree),
          L ++ (rowLeaves (pre₀ ++ [node k us]) ++ (rowLeaves zs ++ R)) =
            (L ++ rowLeaves pre₀) ++ (rowLeaves us ++ (rowLeaves zs ++ R)) := by
        intro k us zs
        simp [rowLeaves, leaves]
      refine ⟨root, _, L ++ rowLeaves pre₀, R, c', hroot, hchild, ?_, hstart, ?_, ?_, ?_⟩
      · exact (followed_of_prefixed
          (p := ofNode p.kind p.start (pre₀ ++ [node k us]) around) hprefixed).mpr hfollowed'
      · rw [hleaves, hsplit, hrow]
        rfl
      · show p.start + rowWidth pre₀ = _
        rw [hL, Token.widthOf_append, rowWidth_eq_widthOf]
      · rw [hleaves', hrow]
    · -- the row of the container changes
      have hout := outermost_of_not_prefixed hprefixed j ts pre₀
      obtain ⟨hcontainer, hchildren, hstart⟩ := hfollowed
      rw [container?, hout] at hcontainer
      obtain rfl := Option.some.inj hcontainer
      rw [hout] at hchildren hstart
      have hstart : p.start + rowWidth pre₀ = p.start + rowWidth pre := hstart
      have hparent : Yields (node p.kind p.children)
          (node p.kind (pre ++ .node k us :: (ys' ++ post))) := by
        rw [show p.children = pre ++ .node j ts :: (ys ++ post) from hchildren]
        exact htrade.yields hk hprefixed
      obtain ⟨root, around, L, R, hroot, hplaced, hleaves, hL, hleaves'⟩ :=
        hp.graft d.exists_row hparent
      have hchild := @Placed.child root
        (ofNode p.kind p.start (pre ++ .node k us :: (ys' ++ post)) around) k us pre (ys' ++ post)
        hplaced rfl
      have hfollowed' := @followed_of_not_prefixed
        (ofNode p.kind p.start (pre ++ .node k us :: (ys' ++ post)) around) k us pre post ys'
        hprefixed rfl
      have hrow : ∀ (k : Kind) (us zs : List Tree),
          L ++ (rowLeaves (pre ++ .node k us :: (zs ++ post)) ++ R) =
            (L ++ rowLeaves pre) ++ (rowLeaves us ++ (rowLeaves zs ++ (rowLeaves post ++ R))) := by
        intro k us zs
        simp [rowLeaves, leaves]
      show ∃ root around L R c', IsDocument root ∧
        Placed root (ofNode k (p.start + rowWidth pre₀) us around) ∧ _
      rw [hstart]
      refine ⟨root, _, L ++ rowLeaves pre, rowLeaves post ++ R, _, hroot, hchild, hfollowed', rfl,
        ?_, ?_, ?_⟩
      · rw [hleaves, show p.children = pre ++ .node j ts :: (ys ++ post) from hchildren, hrow]
        rfl
      · show p.start + rowWidth pre = _
        rw [hL, Token.widthOf_append, rowWidth_eq_widthOf]
      · rw [hleaves', hrow]

/-- The tokens of a form and of the trees after it. -/
theorem exists_tokens {c : Form} {pre ys post : List Tree} (h : Placed d.tree f)
    (hk : f.kind.isForm) (hfollowed : f.Followed c pre ys post)
    (hends : ∀ u, ys.getLast? ≠ some (leaf u)) :
    ∃ L R, d.tree.leaves = L ++ (rowLeaves f.children ++ (rowLeaves ys ++ R)) ∧
      f.start = widthOf L := by
  obtain ⟨-, -, L, R, -, -, -, -, -, hleaves, hL, -⟩ := h.trade hk hfollowed ⟨id, id, hends⟩
  exact ⟨L, R, hleaves, hL⟩

/-- The tokens before and after them are the same ones, however the text is split. -/
theorem trade_at {c : Form} {k : Kind} {us pre ys ys' post : List Tree} {L R : List Token}
    (h : Placed d.tree f) (hk : f.kind.isForm) (hfollowed : f.Followed c pre ys post)
    (hleaves : d.tree.leaves = L ++ (rowLeaves f.children ++ (rowLeaves ys ++ R)))
    (hL : f.start = widthOf L) (htrade : Trade ys ys' (node f.kind f.children) (node k us)) :
    ∃ root around, IsDocument root ∧ Placed root (ofNode k f.start us around) ∧
      root.leaves = L ++ (rowLeaves us ++ (rowLeaves ys' ++ R)) := by
  obtain ⟨root, around, L', R', -, hroot, hplaced, -, -, hleaves', hL', hrootLeaves⟩ :=
    h.trade hk hfollowed htrade
  obtain ⟨rest, -, hform⟩ := h.exists_isForm hk
  obtain ⟨t, ts, hchildren, -⟩ := hform.exists_leaf
  have hmem : t ∈ Token.scan d.text := by
    rw [← d.leaves_tree, hleaves, hchildren]
    simp [rowLeaves, leaves]
  have hpos := List.length_pos_of_ne_nil (Token.scan_text_ne_nil hmem)
  have hsplit := hleaves.symm.trans hleaves'
  -- the first token of the form starts where the form does
  rw [hchildren, rowLeaves, leaves, List.singleton_append, List.cons_append, List.cons_append]
    at hsplit
  obtain ⟨rfl, -⟩ := Token.split_unique hsplit hL.ge (by omega) hL'.ge (by omega)
  have htail := (List.cons.inj (List.append_cancel_left hsplit)).2
  obtain rfl := List.append_cancel_left (List.append_cancel_left htail)
  exact ⟨root, around, hroot, hplaced, hrootLeaves⟩

end Placed

/-! ### The next form -/

theorem inRow_leaves (around : List Site) (start : Nat) (bs : List Token) (ts : List Tree) :
    inRow around start (bs.map leaf ++ ts) = inRow around (start + widthOf bs) ts := by
  induction bs generalizing start with
  | nil => rfl
  | cons b bs ih =>
    rw [List.map_cons, List.cons_append, inRow, ih, Token.widthOf_cons, Nat.add_assoc]

/-- **The `next?` form comes behind the tokens after the form.** -/
theorem Followed.next?_eq {f c : Form} {k : Kind} {pre us post : List Tree} {bs : List Token}
    (h : f.Followed c pre (bs.map leaf ++ [node k us]) post) (hk : k.isForm)
    (hlt : f.outermost.start < f.outermost.stop) :
    f.next? = some (ofNode k (f.outermost.stop + widthOf bs) us (c.toSite :: c.around)) := by
  have hbefore : (inRow (c.toSite :: c.around) c.start pre).find?
      (fun g => g.kind.isForm ∧ decide (f.outermost.start < g.start)) = none := by
    refine List.find?_eq_none.mpr fun g hg => ?_
    have hle := (bounds_of_mem_inRow hg).2
    have hle' := g.start_le_stop
    rw [← h.start] at hle
    rw [decide_eq_true_eq, decide_eq_true_eq]
    omega
  have hself : (ofNode f.outermost.kind (c.start + rowWidth pre) f.outermost.children
      (c.toSite :: c.around)).stop = f.outermost.stop := by
    rw [f.outermost.stop_eq, h.start]
    rfl
  have hnext : k.isForm ∧ decide (f.outermost.start < f.outermost.stop + widthOf bs) :=
    ⟨hk, decide_eq_true (by omega)⟩
  rw [next?, h.container, Option.bind_some, forms, List.find?_filter, nodes, h.children,
    inRow_append, List.find?_append, hbefore, Option.none_or, inRow, List.append_assoc,
    hself, inRow_leaves, List.find?_cons_of_neg, List.singleton_append, inRow]
  · exact List.find?_cons_of_pos (decide_eq_true hnext)
  · rw [decide_eq_true_eq, decide_eq_true_eq]
    show ¬(_ ∧ f.outermost.start < c.start + rowWidth pre)
    rw [h.start]
    omega

namespace Placed

variable {d : Document} {f g c : Form}

/-- The trees before a node of a container are an `IsRow`, but for the opener. -/
theorem exists_isRow_before (h : Placed d.tree c) (hc : c.kind ≠ .prefixed) {k : Kind}
    {us pre post : List Tree} (hsplit : c.children = pre ++ .node k us :: post) :
    ∃ (os : List Token) (xs : List Tree) (inner : Option Kind) (rest : List Token),
      pre = os.map leaf ++ xs ∧ IsRow inner rest xs := by
  rcases h.isForm with ⟨-, -, hrow⟩ | ⟨⟨t, ht⟩, -⟩ | ⟨rest, -, hform⟩
  · rw [hsplit] at hrow
    exact ⟨[], pre, _, _, rfl, (isRow_append.mp hrow).1⟩
  · rw [ht] at hsplit
    cases pre <;> simp at hsplit
  · rw [hsplit] at hform
    obtain ⟨o, xs, rfl, hcases⟩ := hform.cases_of_split
    rcases hcases with ⟨-, _, _, -, -, hrow⟩ | ⟨-, -, hrow⟩ | ⟨-, hprefixed, -⟩
    · exact ⟨[o], xs, _, _, rfl, (isRow_append.mp hrow).1⟩
    · exact ⟨[o], xs, _, _, rfl, (isRow_append.mp hrow).1⟩
    · exact absurd hprefixed hc

/-- A token of the row of a node is a token of the document. -/
theorem exists_leaf_of_split (h : Placed d.tree c) {ts us : List Token} {t : Token}
    (hsplit : rowLeaves c.children = ts ++ t :: us) :
    ∃ l ∈ d.leaves, l.token = t ∧ l.start = c.start + widthOf ts := by
  obtain ⟨L, R, hleaves, hstart⟩ := h.exists_context
  have hscan : Token.scan d.text = (L ++ ts) ++ t :: (us ++ R) := by
    rw [← d.leaves_tree, hleaves, hsplit]
    simp
  have hpos : 0 < t.text.length :=
    List.length_pos_of_ne_nil (Token.scan_text_ne_nil (by rw [hscan]; simp))
  obtain ⟨l, hl, -, htoken, hlstart⟩ :=
    Document.leafAt?_of_split hscan (Nat.le_refl _) (by omega)
  refine ⟨l, hl, htoken, ?_⟩
  rw [hlstart, Token.widthOf_append, hstart]
  rfl

/-- The `next?` form, when there is only trivia before it, is one that the form is `Followed` by. -/
theorem exists_followed_of_next? (h : Placed d.tree f) (hk : f.kind.isForm)
    (hg : f.next? = some g)
    (hgap : ∀ l ∈ d.leaves, f.stop ≤ l.start → l.start < g.start → l.kind.isTrivia) :
    ∃ c pre bs post, f.Followed c pre (bs.map leaf ++ [node g.kind g.children]) post ∧
      (∀ b ∈ bs, b.kind.isTrivia) ∧ g.start = f.stop + widthOf bs ∧ Placed d.tree g ∧
      g.kind.isForm := by
  obtain ⟨c, pre₀, post₀, hc, hkind, hfollowed, hstop⟩ := h.exists_followed hk
  rw [next?, hfollowed.container, Option.bind_some] at hg
  have hmem := List.mem_of_find?_eq_some hg
  have hlt := List.find?_some hg
  rw [decide_eq_true_eq, hfollowed.start] at hlt
  have hself : ofNode f.outermost.kind (c.start + rowWidth pre₀) f.outermost.children
      (c.toSite :: c.around) ∈ inRow (c.toSite :: c.around) c.start c.children := by
    rw [hfollowed.children]
    exact mem_inRow
  obtain ⟨x, m, y, hsplit, hx, hm⟩ := exists_between hself (mem_nodes_of_mem_forms hmem) hlt
  have hx : c.start + rowWidth pre₀ = c.start + rowWidth x := hx
  have hsplit : c.children = x ++ (node f.outermost.kind f.outermost.children ::
      (m ++ .node g.kind g.children :: y)) := hsplit
  have hgstart : g.start = f.stop + rowWidth m := by
    rw [hm, ← hstop, f.outermost.stop_eq, hfollowed.start]
    rfl
  -- what stands between is a row, and all its tokens are trivia
  have hrow : ∃ inner rest, IsRow inner rest m := by
    have hbefore : c.children = (x ++ .node f.outermost.kind f.outermost.children :: m) ++
        .node g.kind g.children :: y := by
      rw [hsplit]
      simp
    obtain ⟨os, xs, inner, rest, hos, hxs⟩ := hc.exists_isRow_before hkind hbefore
    rcases List.append_eq_append_iff.mp hos with ⟨a, ha, ha'⟩ | ⟨a, ha, ha'⟩
    · cases a with
      | nil =>
        rw [List.nil_append] at ha'
        rw [← ha'] at hxs
        exact ⟨inner, rest, hxs.tail⟩
      | cons e a =>
        rw [List.cons_append] at ha'
        obtain ⟨rfl, -⟩ := List.cons.inj ha'
        have hleaf : Tree.node f.outermost.kind f.outermost.children ∈ os.map Tree.leaf := by
          rw [ha]
          simp
        simp at hleaf
    · rw [ha'] at hxs
      exact ⟨inner, rest, (isRow_append.mp hxs).2.tail⟩
  have htrivia : ∀ t ∈ rowLeaves m, t.kind.isTrivia := by
    intro t ht
    obtain ⟨m₁, m₂, hm⟩ := List.append_of_mem ht
    have hleaves : rowLeaves c.children = (rowLeaves x ++ rowLeaves f.outermost.children ++ m₁) ++
        t :: (m₂ ++ rowLeaves (node g.kind g.children :: y)) := by
      rw [hsplit]
      simp [rowLeaves, leaves, hm]
    obtain ⟨l, hl, rfl, hstart⟩ := hc.exists_leaf_of_split hleaves
    have hout : f.outermost.stop = f.outermost.start + rowWidth f.outermost.children :=
      f.outermost.stop_eq
    have hpos : 0 < l.token.text.length := by
      obtain ⟨L, R, hcontext, -⟩ := hc.exists_context
      have hmem : l.token ∈ Token.scan d.text := by
        rw [← d.leaves_tree, hcontext, hleaves]
        simp
      exact List.length_pos_of_ne_nil (Token.scan_text_ne_nil hmem)
    rw [Token.widthOf_append, Token.widthOf_append, ← rowWidth_eq_widthOf,
      ← rowWidth_eq_widthOf] at hstart
    have hwidth : rowWidth m = widthOf m₁ + (l.token.text.length + widthOf m₂) := by
      rw [rowWidth_eq_widthOf, hm, Token.widthOf_append, Token.widthOf_cons]
    have hfstart := hfollowed.start
    exact hgap l hl (by omega) (by omega)
  obtain ⟨inner, rest, hrow⟩ := hrow
  have hm := hrow.eq_leaves htrivia
  refine ⟨c, x, rowLeaves m, y, ⟨hfollowed.container, ?_, hfollowed.start.trans hx⟩, htrivia, ?_,
    hc.of_mem_forms hmem, (List.mem_filter.mp hmem).2⟩
  · rw [hsplit, ← hm]
    simp
  · rw [hgstart, rowWidth_eq_widthOf]

end Placed

end Form

end SexpEdit
