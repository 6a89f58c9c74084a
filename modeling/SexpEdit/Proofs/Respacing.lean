/-
Respaced lines.

When the blanks that a line starts with are replaced, the tokens of the line stay on it and move
together; the tokens of other lines stay where they are, in lines and columns.  The edits of a pass
are of different lines, and so every significant token moves by the shift of its line.

* `Text.Follows` — an offset that moves with its line;
* `Reindent.Remade.respaced` — each significant token moves with its line;
* `Reindent.Remade.getElem?_lines` — the lines of the text after the edits;
* `Text.Respaced.inString` — a line that starts inside a string goes on to do so.
-/
import Mathlib.Data.List.Forall2
import SexpEdit.Proofs.Reindentation

namespace SexpEdit

open Text
open Token (scan spots Fresh widthOf InString)

namespace Token

theorem exists_of_mem_spots {t : Token} {n : Nat} : ∀ {ts : List Token} {offset : Nat},
    (t, n) ∈ spots offset ts → ∃ us vs, ts = us ++ t :: vs ∧ n = offset + widthOf us
  | u :: ts, offset, h => by
    have htail : (t, n) ∈ spots (offset + u.text.length) ts →
        ∃ us vs, u :: ts = us ++ t :: vs ∧ n = offset + widthOf us := by
      intro h
      obtain ⟨us, vs, rfl, hn⟩ := exists_of_mem_spots h
      refine ⟨u :: us, vs, rfl, ?_⟩
      rw [hn, widthOf_cons, Nat.add_assoc]
    rw [spots] at h
    split at h
    · exact htail h
    · rcases List.mem_cons.mp h with heq | h
      · cases heq
        exact ⟨[], ts, rfl, rfl⟩
      · exact htail h

theorem mem_spots {t : Token} (ht : t.kind ≠ .whitespace) (us vs : List Token) (offset : Nat) :
    (t, offset + widthOf us) ∈ spots offset (us ++ t :: vs) := by
  rw [spots_append, spots, if_neg ht]
  exact List.mem_append_right _ List.mem_cons_self

/-- A token lies in the text, and its characters lead from where it starts to where it ends. -/
theorem place_of_split {cs : List Char} {ts us : List Token} {t : Token}
    (h : scan cs = ts ++ t :: us) :
    widthOf ts + t.text.length ≤ cs.length ∧
      lineColumn cs (widthOf ts + t.text.length) = advance (lineColumn cs (widthOf ts)) t.text := by
  have hcs : cs = ts.flatMap text ++ (t.text ++ us.flatMap text) := by
    rw [← scan_text cs, h, List.flatMap_append, List.flatMap_cons]
  constructor
  · rw [← widthOf_scan cs, h, widthOf_append, widthOf_cons]
    omega
  · rw [hcs, lineColumn_append_left _ (Nat.le_refl (widthOf ts))]
    show lineColumn _ ((ts.flatMap text).length + t.text.length) =
      advance (lineColumn _ (ts.flatMap text).length) t.text
    rw [lineColumn_append_right, List.take_left, lineColumn, List.take_length]

theorem lt_of_mem_spots_scan {cs : List Char} {t : Token} {n : Nat}
    (h : (t, n) ∈ spots 0 (scan cs)) : n < cs.length := by
  obtain ⟨us, vs, hscan, hn⟩ := exists_of_mem_spots h
  have hmem : t ∈ scan cs := by simp [hscan]
  have hpos := List.length_pos_iff.mpr (scan_text_ne_nil hmem)
  rw [← widthOf_scan, hscan, hn, widthOf_append, widthOf_cons]
  omega

/-- The `spots` of a row of tokens at another offset. -/
theorem forall₂_spots (ts : List Token) (m n : Nat) :
    List.Forall₂ (fun x y => y.1 = x.1 ∧ ∃ k ≤ widthOf ts, x.2 = m + k ∧ y.2 = n + k)
      (spots m ts) (spots n ts) := by
  induction ts generalizing m n with
  | nil => exact .nil
  | cons t ts ih =>
    have htail : List.Forall₂
        (fun x y => y.1 = x.1 ∧ ∃ k ≤ widthOf (t :: ts), x.2 = m + k ∧ y.2 = n + k)
        (spots (m + t.text.length) ts) (spots (n + t.text.length) ts) := by
      refine (ih _ _).imp ?_
      rintro x y ⟨htoken, k, hk, hx, hy⟩
      refine ⟨htoken, t.text.length + k, ?_, by omega, by omega⟩
      rw [widthOf_cons]
      omega
    rw [spots, spots]
    by_cases ht : t.kind = .whitespace
    · rw [if_pos ht, if_pos ht]
      exact htail
    · rw [if_neg ht, if_neg ht]
      exact .cons ⟨rfl, 0, Nat.zero_le _, rfl, rfl⟩ htail

end Token

theorem forall₂_trans {α β γ : Type} {R : α → β → Prop} {S : β → γ → Prop} {T : α → γ → Prop}
    (hall : ∀ {a b c}, R a b → S b c → T a c) {xs : List α} {ys : List β} {zs : List γ}
    (h : List.Forall₂ R xs ys) (h' : List.Forall₂ S ys zs) : List.Forall₂ T xs zs := by
  induction h generalizing zs with
  | nil =>
    cases h'
    exact .nil
  | cons hab _ ih =>
    cases h' with
    | cons hbc h' => exact .cons (hall hab hbc) (ih h')

theorem exists_of_mem_forall₂ {α β : Type} {R : α → β → Prop} {xs : List α} {ys : List β}
    (h : List.Forall₂ R xs ys) {x : α} (hx : x ∈ xs) : ∃ y ∈ ys, R x y := by
  induction h with
  | nil => cases hx
  | cons hab _ ih =>
    rcases List.mem_cons.mp hx with rfl | hx
    · exact ⟨_, List.mem_cons_self, hab⟩
    · obtain ⟨y, hy, hxy⟩ := ih hx
      exact ⟨y, List.mem_cons_of_mem _ hy, hxy⟩

namespace Text

theorem not_mem_of_blanks {bs : List Char} (h : ∀ b ∈ bs, b = ' ' ∨ b = '\t') : '\n' ∉ bs := by
  intro hmem
  rcases h _ hmem with h | h
  · cases h
  · cases h

/-! ### Offsets that move with their lines -/

/-- The offset `p` of `cs` and the offset `p'` of `cs'` are on the same line, the second of them
further to the right by the shift of the line. -/
structure Follows (shift : Nat → Int) (cs cs' : List Char) (p p' : Nat) : Prop where
  le : p ≤ cs.length
  le' : p' ≤ cs'.length
  line : (lineColumn cs' p').1 = (lineColumn cs p).1
  column : ((lineColumn cs' p').2 : Int) = (lineColumn cs p).2 + shift (lineColumn cs p).1

namespace Follows

variable {shift shift' : Nat → Int} {cs cs' cs'' : List Char} {p p' p'' q q' : Nat}

/-- Offsets that `Follows` relates keep their order. -/
theorem lt_iff (hp : Follows shift cs cs' p p') (hq : Follows shift cs cs' q q') :
    p < q ↔ p' < q' := by
  obtain ⟨hple, hple', hpline, hpcolumn⟩ := hp
  obtain ⟨hqle, hqle', hqline, hqcolumn⟩ := hq
  rw [lt_iff_lineColumn_lt hple hqle, lt_iff_lineColumn_lt hple' hqle', hpline, hqline]
  by_cases hline : (lineColumn cs p).1 = (lineColumn cs q).1
  · -- on one line both have the same shift
    rw [hline] at hpcolumn
    omega
  · omega

theorem refl (hp : p ≤ cs.length) : Follows (fun _ => 0) cs cs p p :=
  ⟨hp, hp, rfl, (Int.add_zero _).symm⟩

theorem trans (h : Follows shift cs cs' p p') (h' : Follows shift' cs' cs'' p' p'') :
    Follows (fun line => shift line + shift' line) cs cs'' p p'' := by
  refine ⟨h.le, h'.le', h'.line.trans h.line, ?_⟩
  rw [h'.column, h.column, h.line, Int.add_assoc]

/-- Before `line`, the one that changes, an offset stays. -/
theorem before {as : List Char} {line : Nat} (has : advance (0, 0) as = (line, 0))
    (xs ys : List Char) {n : Nat} (hn : n < as.length) (k : Int) :
    Follows (fun l => if l = line then k else 0) (as ++ xs) (as ++ ys) n n := by
  have hlt := line_lt_of_lt has hn
  have hleft := lineColumn_append_left xs (Nat.le_of_lt hn)
  have hleft' := lineColumn_append_left ys (Nat.le_of_lt hn)
  refine ⟨?_, ?_, ?_, ?_⟩
  · rw [List.length_append]
    omega
  · rw [List.length_append]
    omega
  · rw [hleft, hleft']
  · rw [hleft, hleft', if_neg (Nat.ne_of_lt hlt), Int.add_zero]

/-- Behind the blanks of the line that changes an offset moves with its line. -/
theorem behind {as bs bs' rest : List Char} {line : Nat} (has : advance (0, 0) as = (line, 0))
    (hbs : '\n' ∉ bs) (hbs' : '\n' ∉ bs') {n : Nat} (hn : n ≤ rest.length) :
    Follows (fun l => if l = line then (bs'.length : Int) - bs.length else 0)
      (as ++ (bs ++ rest)) (as ++ (bs' ++ rest)) (as.length + bs.length + n)
      (as.length + bs'.length + n) := by
  have hplace : ∀ {xs : List Char}, '\n' ∉ xs →
      lineColumn (as ++ (xs ++ rest)) (as.length + xs.length + n) =
        advance (line, xs.length) (rest.take n) := by
    intro xs hxs
    rw [Nat.add_assoc, lineColumn_append_right, has, List.take_length_add_append, advance_append,
      advance_of_not_mem hxs, Nat.zero_add]
  refine ⟨?_, ?_, ?_, ?_⟩
  · simp only [List.length_append]
    omega
  · simp only [List.length_append]
    omega
  · rw [hplace hbs, hplace hbs']
    rcases advance_cases (rest.take n) line with h | ⟨place, -, h⟩
    · rw [h, h]
    · rw [h, h]
  · rw [hplace hbs, hplace hbs']
    rcases advance_cases (rest.take n) line with h | ⟨place, hlt, h⟩
    · rw [h, h, if_pos rfl]
      push_cast
      omega
    · rw [h, h, if_neg (Nat.ne_of_gt hlt), Int.add_zero]

end Follows

/-! ### Tokens that move with their lines -/

/-- The significant tokens of `cs` and `cs'` are the same, and each moves with its line. -/
def Respaced (shift : Nat → Int) (cs cs' : List Char) : Prop :=
  List.Forall₂ (fun x x' => x'.1 = x.1 ∧ Follows shift cs cs' x.2 x'.2) (spots 0 (scan cs))
    (spots 0 (scan cs'))

namespace Respaced

variable {shift shift' : Nat → Int} {cs cs' cs'' : List Char}

theorem refl (cs : List Char) : Respaced (fun _ => 0) cs cs := by
  refine List.forall₂_same.mpr ?_
  rintro ⟨t, n⟩ hmem
  exact ⟨rfl, .refl (Nat.le_of_lt (Token.lt_of_mem_spots_scan hmem))⟩

theorem trans (h : Respaced shift cs cs') (h' : Respaced shift' cs' cs'') :
    Respaced (fun line => shift line + shift' line) cs cs'' :=
  forall₂_trans (fun h h' => ⟨h'.1.trans h.1, h.2.trans h'.2⟩) h h'

/-- Other blanks `bs'` in the place of `bs` at the start of a line move the tokens of the line. -/
theorem of_blanks (rest : List Char) {as bs bs' : List Char} {c : Char} {line : Nat}
    (has : advance (0, 0) as = (line, 0)) (hfresh : Fresh as)
    (hbs : ∀ b ∈ bs, b = ' ' ∨ b = '\t') (hbs' : ∀ b ∈ bs', b = ' ' ∨ b = '\t') (hc : c ≠ '\r') :
    Respaced (fun l => if l = line then (bs'.length : Int) - bs.length else 0)
      (as ++ (bs ++ c :: rest)) (as ++ (bs' ++ c :: rest)) := by
  rw [Respaced, Token.spots_scan_line hfresh hbs hc, Token.spots_scan_line hfresh hbs' hc]
  refine List.rel_append (List.forall₂_same.mpr ?_) ((Token.forall₂_spots _ _ _).imp ?_)
  · rintro ⟨t, n⟩ hmem
    exact ⟨rfl, .before has _ _ (Token.lt_of_mem_spots_scan hmem) _⟩
  · rintro ⟨t, n⟩ ⟨t', n'⟩ ⟨htoken, k, hk, hn, hn'⟩
    rw [Token.widthOf_scan] at hk
    refine ⟨htoken, ?_⟩
    show Follows _ _ _ n n'
    have hn : n = as.length + bs.length + k := hn
    have hn' : n' = as.length + bs'.length + k := hn'
    rw [hn, hn']
    exact .behind has (not_mem_of_blanks hbs) (not_mem_of_blanks hbs') hk

/-- The significant tokens of `Respaced` texts are the same. -/
theorem significant (h : Respaced shift cs cs') :
    Token.significant (scan cs') = Token.significant (scan cs) := by
  rw [← Token.map_fst_spots _ 0, ← Token.map_fst_spots _ 0, ← List.forall₂_eq_eq_eq,
    List.forall₂_map_left_iff, List.forall₂_map_right_iff]
  exact List.Forall₂.flip (h.imp fun _ _ hxy => hxy.1)

/-- Where a line starts inside a string it does so in the other text. -/
theorem inString (h : Respaced shift cs cs') {n n' line : Nat} (hn : lineColumn cs n = (line, 0))
    (hn' : lineColumn cs' n' = (line, 0)) (hle : n ≤ cs.length) (hle' : n' ≤ cs'.length)
    (hin : InString cs n) : InString cs' n' := by
  obtain ⟨ts, t, us, hscan, hlt, hgt, hk⟩ := hin
  have hkind : t.kind ≠ .whitespace := by
    intro hkind
    rw [hkind] at hk
    cases hk
  have hmem : (t, widthOf ts) ∈ spots 0 (scan cs) := by
    rw [hscan, ← Nat.zero_add (widthOf ts)]
    exact Token.mem_spots hkind ts us 0
  obtain ⟨⟨t', p'⟩, hmem', htoken, hfollows⟩ := exists_of_mem_forall₂ h hmem
  obtain rfl : t' = t := htoken
  obtain ⟨ts', us', hscan', hp'⟩ := Token.exists_of_mem_spots hmem'
  rw [Nat.zero_add] at hp'
  subst hp'
  obtain ⟨hstop, hend⟩ := Token.place_of_split hscan
  obtain ⟨hstop', hend'⟩ := Token.place_of_split hscan'
  have hbefore := lineColumn_lt hlt hle
  have hbehind := lineColumn_lt hgt hstop
  have hline : (lineColumn cs' (widthOf ts')).1 = (lineColumn cs (widthOf ts)).1 := hfollows.line
  rw [hn] at hbefore hbehind
  refine ⟨ts', t', us', hscan', ?_, ?_, hk⟩
  · rw [lt_iff_lineColumn_lt hfollows.le' hle', hn', hline]
    omega
  · rw [lt_iff_lineColumn_lt hle' hstop', hn', hend']
    -- there is a line feed in the string, so it ends in the same place in both texts
    rcases advance_cases t'.text (lineColumn cs (widthOf ts)).1 with hcases | ⟨place, -, hcases⟩
    · rw [hend, hcases] at hbehind
      omega
    · rw [hend, hcases] at hbehind
      have hstart : lineColumn cs' (widthOf ts') =
          ((lineColumn cs (widthOf ts)).1, (lineColumn cs' (widthOf ts')).2) := Prod.ext hline rfl
      rw [hstart, hcases]
      exact hbehind

end Respaced

end Text

namespace Reindent

/-! ### What the edits of a pass do -/

/-- The line that the edit `e` makes of the line `l`. -/
def LineEdit.relaid (e : LineEdit) (l : List Char) : List Char :=
  List.replicate e.after ' ' ++ l.drop e.before

/-- The line that `edits` make of `l`, the line of the number `line`. -/
def relaid (edits : List LineEdit) (line : Nat) (l : List Char) : List Char :=
  match edits.find? fun e => e.line == line with
  | some e => e.relaid l
  | none => l

theorem find?_eq_none {edits : List LineEdit} {line : Nat} (h : ∀ e ∈ edits, e.line ≠ line) :
    edits.find? (fun e => e.line == line) = none := by
  rw [List.find?_eq_none]
  intro e he
  rw [beq_iff_eq]
  exact h e he

theorem find?_append_of_ne (edits : List LineEdit) {edits' : List LineEdit} {line : Nat}
    (h : ∀ e ∈ edits', e.line ≠ line) :
    (edits ++ edits').find? (fun e => e.line == line) = edits.find? fun e => e.line == line := by
  rw [List.find?_append, find?_eq_none h, Option.or_none]

theorem find?_append_of_eq {edits : List LineEdit} {e : LineEdit}
    (h : ∀ e' ∈ edits, e'.line ≠ e.line) (edits' : List LineEdit) :
    (edits ++ e :: edits').find? (fun e' => e'.line == e.line) = some e := by
  rw [List.find?_append, find?_eq_none h, Option.none_or]
  exact List.find?_cons_of_pos (beq_self_eq_true _)

theorem shiftOf_append {edits : List LineEdit} {e : LineEdit} (h : ∀ e' ∈ edits, e'.line ≠ e.line)
    (line : Nat) :
    shiftOf (edits ++ [e]) line = (if line = e.line then e.shift else 0) + shiftOf edits line := by
  rw [shiftOf, shiftOf]
  by_cases hline : line = e.line
  · rw [if_pos hline, hline, find?_eq_none h, find?_append_of_eq h]
    exact (Int.add_zero _).symm
  · rw [if_neg hline, find?_append_of_ne edits (by simpa using Ne.symm hline), Int.zero_add]

/-- One edit changes one line. -/
theorem getElem?_lines_of_blanks {as bs rest : List Char} {e : LineEdit}
    (has : advance (0, 0) as = (e.line, 0)) (hbefore : e.before = bs.length)
    (hblank : ∀ b ∈ bs, b = ' ' ∨ b = '\t') (line : Nat) :
    (lines (as ++ (List.replicate e.after ' ' ++ rest)))[line]? =
      (lines (as ++ (bs ++ rest)))[line]?.map fun l => if line = e.line then e.relaid l else l := by
  obtain ⟨above, hlength, hlines⟩ := exists_lines_append has
  obtain ⟨l, below, hrest, hbs⟩ := exists_lines_cons (not_mem_of_blanks hblank) rest
  obtain ⟨l', below', hrest', hbs'⟩ :=
    exists_lines_cons (not_mem_of_blanks (blanks_replicate e.after)) rest
  obtain ⟨rfl, rfl⟩ := List.cons.inj (hrest.symm.trans hrest')
  rw [hlines, hlines, hbs, hbs']
  rcases Nat.lt_trichotomy line above.length with hlt | heq | hgt
  · rw [List.getElem?_append_left hlt, List.getElem?_append_left hlt]
    simp only [if_neg (show line ≠ e.line by omega), Option.map_id']
  · have hdrop : (bs ++ l).drop e.before = l := by
      rw [hbefore, List.drop_left]
    rw [List.getElem?_append_right (by omega), List.getElem?_append_right (by omega)]
    simp [heq, show above.length = e.line by omega, LineEdit.relaid, hdrop]
  · obtain ⟨k, hk⟩ : ∃ k, line - above.length = k + 1 := ⟨line - above.length - 1, by omega⟩
    rw [List.getElem?_append_right (by omega), List.getElem?_append_right (by omega), hk,
      List.getElem?_cons_succ, List.getElem?_cons_succ]
    simp only [if_neg (show line ≠ e.line by omega), Option.map_id']

namespace Remade

variable {Q : LineEdit → List Char → Prop} {edits : List LineEdit} {cs out : List Char}

/-- **Every significant token moves by the shift of its line**: `Remade` texts are `Respaced`. -/
theorem respaced (hq : ∀ {e : LineEdit} {as : List Char}, Q e as →
      Fresh as ∧ advance (0, 0) as = (e.line, 0))
    (hlines : edits.Pairwise fun e e' => e.line ≠ e'.line) (h : Remade Q edits cs out) :
    Respaced (shiftOf edits) cs out := by
  induction h with
  | nil => exact .refl _
  | @snoc edits e as bs rest out c he hbefore hblank hc _ ih =>
    obtain ⟨hlines, -, hlast⟩ := List.pairwise_append.mp hlines
    obtain ⟨hfresh, has⟩ := hq he
    have hedit := Respaced.of_blanks rest has hfresh hblank (blanks_replicate e.after) hc
    have hshift : shiftOf (edits ++ [e]) = _ :=
      funext (shiftOf_append fun e' he' => hlast e' he' e List.mem_cons_self)
    rw [hshift, LineEdit.shift, hbefore]
    rw [List.length_replicate] at hedit
    exact hedit.trans (ih hlines)

/-- The `lines` of the text after the edits are `relaid` by them. -/
theorem getElem?_lines
    (hq : ∀ {e : LineEdit} {as : List Char}, Q e as → advance (0, 0) as = (e.line, 0))
    (hlines : edits.Pairwise fun e e' => e.line ≠ e'.line) (h : Remade Q edits cs out)
    (line : Nat) : (lines out)[line]? = (lines cs)[line]?.map (relaid edits line) := by
  induction h with
  | nil => exact Option.map_id'.symm
  | @snoc edits e as bs rest out c he hbefore hblank hc _ ih =>
    obtain ⟨hlines, -, hlast⟩ := List.pairwise_append.mp hlines
    rw [ih hlines, getElem?_lines_of_blanks (hq he) hbefore hblank, Option.map_map]
    congr 1
    funext l
    show relaid edits line (if line = e.line then e.relaid l else l) = relaid (edits ++ [e]) line l
    by_cases hline : line = e.line
    · have hne : ∀ e' ∈ edits, e'.line ≠ e.line := fun e' he' =>
        hlast e' he' e List.mem_cons_self
      rw [if_pos hline, relaid, relaid, hline, find?_eq_none hne, find?_append_of_eq hne]
    · rw [if_neg hline, relaid, relaid, find?_append_of_ne edits (by simpa using Ne.symm hline)]

end Remade

end Reindent

end SexpEdit
