/-
Edits stay in the text.

Whether changes can be made is a matter of lengths alone: each must lie in the text as long as the
changes before it left it.  So is whether a caret lies in the text that they lead to.  Every
structural edit gives such changes and such a caret, whatever the document, as long as the offset
and the other end of the selection are in the text.

* `Change.Fits` — changes that stay in a text of a given length;
* `Change.Fits.exists_makes` — such changes can all be made;
* `Makes.length_eq` — how long the text is after them;
* `StructuralEdit.edit?_fits` — every structural edit fits its document.
-/
import SexpEdit.Operation
import SexpEdit.Proofs.Extent
import SexpEdit.Proofs.Removal

namespace SexpEdit

/-- Changes stay in a text of some length, each in the length that the ones before it left. -/
inductive Change.Fits : Nat → List Change → Prop
  | nil {n : Nat} : Fits n []
  | insertion {n s : Nat} {new : List Char} {changes : List Change} :
      s ≤ n → Fits (n + new.length) changes → Fits n (.insertion s new :: changes)
  | deletion {n s k : Nat} {changes : List Change} :
      s + k ≤ n → Fits (n - k) changes → Fits n (.deletion s k :: changes)

/-- Changes that fit can all be made: some text is one that they make, by `Makes`. -/
theorem Change.Fits.exists_makes {n : Nat} {changes : List Change} (h : Fits n changes) :
    ∀ {cs : List Char}, cs.length = n → ∃ out, Makes cs changes out := by
  induction h with
  | nil =>
    intro cs _
    exact ⟨cs, .nil cs⟩
  | @insertion n s new changes hle _ ih =>
    intro cs hn
    have hlength : (cs.take s ++ (new ++ cs.drop s)).length = n + new.length := by
      simp only [List.length_append, List.length_take, List.length_drop]
      omega
    obtain ⟨out, hout⟩ := ih hlength
    refine ⟨out, .insertion (cs.take s) (cs.drop s) (List.take_append_drop s cs).symm ?_ hout⟩
    rw [List.length_take]
    omega
  | @deletion n s k changes hle _ ih =>
    intro cs hn
    have hlength : (cs.take s ++ cs.drop (s + k)).length = n - k := by
      simp only [List.length_append, List.length_take, List.length_drop]
      omega
    obtain ⟨out, hout⟩ := ih hlength
    exact ⟨out, .cut (by omega) hout⟩

/-- How long a text of length `n` is after changes. -/
def Change.resized (n : Nat) : List Change → Nat
  | [] => n
  | c :: changes =>
    match c.payload with
    | .text new => resized (n + new.length) changes
    | .length k => resized (n - k) changes

namespace Change

@[simp] theorem resized_nil (n : Nat) : resized n [] = n :=
  rfl

@[simp] theorem resized_insertion (n s : Nat) (new : List Char) (changes : List Change) :
    resized n (.insertion s new :: changes) = resized (n + new.length) changes :=
  rfl

@[simp] theorem resized_deletion (n s k : Nat) (changes : List Change) :
    resized n (.deletion s k :: changes) = resized (n - k) changes :=
  rfl

end Change

/-- A change that stands for a command is an insertion or a deletion. -/
theorem Change.eq_of_command {c : Change} {command : Command} (h : c.command = .ok command) :
    (∃ s new, c = .insertion s new ∧ command = .insert s new) ∨
      ∃ s k, c = .deletion s k ∧ command = .delete s k := by
  obtain ⟨kind, start, payload⟩ := c
  cases kind <;> cases payload <;> cases h
  · exact .inl ⟨start, _, rfl, rfl⟩
  · exact .inr ⟨start, _, rfl, rfl⟩

/-- Changes that stand for commands, by `Change.commands`, do so one by one. -/
theorem Change.exists_of_commands_cons {c : Change} {changes : List Change}
    {commands : List Command} (h : Change.commands (c :: changes) = .ok commands) :
    ∃ first rest, c.command = .ok first ∧ Change.commands changes = .ok rest ∧
      commands = first :: rest := by
  rw [Change.commands] at h
  split at h
  · cases h
  · rename_i first hfirst
    split at h
    · cases h
    · rename_i rest hrest
      exact ⟨first, rest, hfirst, hrest, (Except.ok.inj h).symm⟩

/-- The text that changes make has the length that they lead to, by `Change.resized`. -/
theorem Makes.length_eq {changes : List Change} : ∀ {cs out : List Char},
    Makes cs changes out → out.length = Change.resized cs.length changes := by
  induction changes with
  | nil =>
    rintro cs out ⟨commands, hcommands, hsplice⟩
    cases hcommands
    exact congrArg List.length (Option.some.inj hsplice).symm
  | cons c changes ih =>
    rintro cs out ⟨commands, hcommands, hsplice⟩
    obtain ⟨first, rest, hfirst, hrest, rfl⟩ := Change.exists_of_commands_cons hcommands
    rw [Command.spliceAll?_cons] at hsplice
    obtain ⟨mid, hmid, hout⟩ := Option.bind_eq_some_iff.mp hsplice
    rw [ih ⟨rest, hrest, hout⟩]
    rcases Change.eq_of_command hfirst with ⟨s, new, rfl, rfl⟩ | ⟨s, k, rfl, rfl⟩
    · obtain ⟨hle, hmid⟩ := Option.ite_none_right_eq_some.mp hmid
      rw [Change.resized_insertion, ← Option.some.inj hmid]
      simp only [List.length_append, List.length_take, List.length_drop]
      congr 1
      omega
    · obtain ⟨hle, hmid⟩ := Option.ite_none_right_eq_some.mp hmid
      rw [Change.resized_deletion, ← Option.some.inj hmid]
      simp only [List.length_append, List.length_take, List.length_drop]
      congr 1
      omega

/-- The changes of an edit stay in a text of some length, and its caret in the text after them. -/
structure Edit.Fits (n : Nat) (r : Edit) : Prop where
  changes : Change.Fits n r.changes
  caret : r.caret ≤ Change.resized n r.changes

/-- A deletion that leaves the caret where it was made. -/
theorem Edit.Fits.deletion_at {n s k : Nat} (h : s + k ≤ n) :
    Edit.Fits n ⟨[.deletion s k], s⟩ := by
  refine ⟨.deletion h .nil, ?_⟩
  show s ≤ n - k
  omega

namespace Document

open Form (Placed)
open Change (Fits)

variable {d : Document} {offset : Nat} {o : Edit.Options} {r : Edit}

/-! ### Edits that move delimiters -/

theorem placed_of_mem_outward {list : Form} (h : list ∈ d.outward offset) :
    Placed d.tree list ∧ list.Framed := by
  rw [outward] at h
  split at h
  · cases h
  · rename_i f hf
    obtain ⟨hplaced, hframed, -⟩ := framed_of_innermost? hf
    rcases List.mem_cons.mp h with rfl | h
    · exact ⟨hplaced, hframed⟩
    · obtain ⟨hp, hk⟩ := hplaced.mem_collectionsOf list h
      exact ⟨hp, hp.framed hk⟩

theorem slurp?_fits {backward : Bool} (hoffset : offset ≤ d.length)
    (h : d.slurp? offset backward = some r) : r.Fits d.length := by
  obtain ⟨list, hmem, hlist⟩ := List.exists_of_findSome?_eq_some h
  obtain ⟨hplaced, hframed⟩ := placed_of_mem_outward hmem
  have hstop := hplaced.stop_le
  split at hlist
  · rename_i hclosed
    have hlt := hframed.closed_lt hclosed
    have hopening := hframed.opening_length
    have hclosing := hframed.closing_length
    obtain ⟨sibling, hsibling, rfl⟩ := Option.map_eq_some_iff.mp hlist
    by_cases hback : backward
    · rw [if_pos hback] at hsibling
      obtain ⟨-, hbefore⟩ := hplaced.of_prev? hsibling
      rw [adopt, if_pos hback]
      refine ⟨.deletion (by omega) (.insertion (by omega) .nil), ?_⟩
      show offset ≤ d.length - list.opening.length + list.opening.length
      omega
    · rw [if_neg hback] at hsibling
      have hnext := (hplaced.of_next? hsibling).1.stop_le
      rw [adopt, if_neg hback]
      refine ⟨.deletion (by omega) (.insertion (by omega) .nil), ?_⟩
      show offset ≤ d.length - list.closing.length + list.closing.length
      omega
  · cases hlist

theorem barf?_fits {backward : Bool} (h : d.barf? offset backward = some r) :
    r.Fits d.length := by
  rw [barf?] at h
  split at h
  · cases h
  · rename_i list hlist
    obtain ⟨hplaced, hframed, hholds⟩ := framed_of_innermost? hlist
    have hstop := hplaced.stop_le
    have hstart := hframed.innerStart_eq
    have hbounds := hframed.inner_bounds
    have hopening := hframed.opening_length
    have hclosing := hframed.closing_length
    dsimp only at h
    split at h
    · cases h
    · rename_i hclosed
      rw [Bool.or_eq_true, Bool.not_eq_true', not_or, Bool.not_eq_false] at hclosed
      have hend := hframed.innerStop_of_isClosed hclosed.1
      split at h
      · obtain rfl := Option.some.inj h
        refine ⟨.insertion ?_ (.deletion (by omega) .nil), ?_⟩
        · split
          · rename_i f hf
            have hin := hframed.bounds_of_mem (List.mem_of_getElem? hf)
            omega
          · omega
        · have hcaret : ∀ target, (if offset < target then offset - 1 else offset) ≤ offset := by
            intro target
            split <;> omega
          refine (hcaret _).trans ?_
          show offset ≤ d.length + list.opening.length - list.opening.length
          omega
      · obtain rfl := Option.some.inj h
        refine ⟨.deletion (by omega) (.insertion ?_ .nil), ?_⟩
        · split
          · rename_i f hf
            have hin := hframed.bounds_of_mem (List.dropLast_subset _ (List.mem_of_getLast? hf))
            omega
          · omega
        · have hcaret : ∀ target,
              (if target < offset then offset + 1 else offset) ≤ offset + 1 := by
            intro target
            split <;> omega
          -- the offset is before the closer, so there is room for one more
          refine (hcaret _).trans ?_
          show offset + 1 ≤ d.length - list.closing.length + list.closing.length
          omega

theorem splice?_fits (h : d.splice? offset = some r) : r.Fits d.length := by
  obtain ⟨list, hlist, rfl⟩ := Option.map_eq_some_iff.mp h
  obtain ⟨hplaced, hframed, hholds⟩ := framed_of_innermost? hlist
  have hstop := hplaced.stop_le
  have hstart := hframed.start_lt
  have hopening := hframed.opening_length
  have hclosing := hframed.closing_length
  rw [uncloseChanges]
  split
  · rename_i hclosed
    have hend := hframed.innerStop_of_isClosed hclosed
    have hlt := hframed.closed_lt hclosed
    refine ⟨.deletion (by omega) (.deletion (by omega) .nil), ?_⟩
    show offset - list.opening.length ≤ d.length - list.closing.length - list.opening.length
    omega
  · rename_i hclosed
    rw [Form.innerStop, if_neg hclosed] at hholds
    refine ⟨.deletion (by omega) .nil, ?_⟩
    show offset - list.opening.length ≤ d.length - list.opening.length
    omega

/-- No form of a row that ends up to `n` ends behind the one that `lastBefore?` finds. -/
theorem stop_le_of_lastBefore? {c f g : Form} {n : Nat}
    (h : Form.lastBefore? c.forms n = some f) (hg : g ∈ c.forms) (hle : g.stop ≤ n) :
    g.stop ≤ f.stop := by
  obtain ⟨fs, hfs⟩ := List.getLast?_eq_some_iff.mp h
  have hmem : g ∈ fs ++ [f] := by
    rw [← hfs, List.mem_filter, decide_eq_true_eq]
    exact ⟨hg, hle⟩
  have hpairs := c.pairwise_forms.filter fun f => decide (f.stop ≤ n)
  rw [hfs, List.pairwise_append] at hpairs
  rcases List.mem_append.mp hmem with hmem | hmem
  · exact (hpairs.2.2 g hmem f (List.mem_singleton_self f)).trans f.start_le_stop
  · rw [List.mem_singleton.mp hmem]

/-- No form of a row that starts from `n` on starts before the one that `firstAfter?` finds. -/
theorem start_le_of_firstAfter? {c f g : Form} {n : Nat}
    (h : Form.firstAfter? c.forms n = some f) (hg : g ∈ c.forms) (hle : n ≤ g.start) :
    f.start ≤ g.start := by
  obtain ⟨-, fs, gs, hfs, hbefore⟩ := List.find?_eq_some_iff_append.mp h
  have hpairs := c.pairwise_forms
  rw [hfs] at hg hpairs
  rcases List.mem_append.mp hg with hmem | hmem
  · have hnot := hbefore g hmem
    simp only [Bool.not_eq_true', decide_eq_false_iff_not] at hnot
    exact absurd hle hnot
  · rcases List.mem_cons.mp hmem with rfl | hmem
    · exact Nat.le_refl _
    · have hrest := (List.pairwise_append.mp hpairs).2.1
      exact f.start_le_stop.trans ((List.pairwise_cons.mp hrest).1 g hmem)

/-- Where the row of a collection is cut there is no form: it is behind the form around the offset,
or at the offset when there is none. -/
theorem cut_outside (c : Form) (offset : Nat) {g : Form} (hg : g ∈ c.forms) :
    let cut := match (Form.around? c.forms offset).bind (c.forms[·]?) with
      | some f => f.stop
      | none => offset
    g.stop ≤ cut ∨ cut ≤ g.start := by
  intro cut
  simp only [cut]
  split
  · rename_i f hf
    obtain ⟨i, -, hi⟩ := Option.bind_eq_some_iff.mp hf
    obtain ⟨hlt, rfl⟩ := List.getElem?_eq_some_iff.mp hi
    obtain ⟨j, hj, rfl⟩ := List.getElem_of_mem hg
    have hpairs := List.pairwise_iff_getElem.mp c.pairwise_forms
    rcases Nat.lt_trichotomy j i with hji | rfl | hij
    · exact .inl ((hpairs j i hj hlt hji).trans (c.forms[i]).start_le_stop)
    · exact .inl (Nat.le_refl _)
    · exact .inr (hpairs i j hlt hj hij)
  · rename_i hnone
    have haround : Form.around? c.forms offset = none := by
      cases haround : Form.around? c.forms offset with
      | none => rfl
      | some i =>
        obtain ⟨hlt, -⟩ := List.findIdx?_eq_some_iff_getElem.mp haround
        rw [haround, Option.bind_some, List.getElem?_eq_getElem hlt] at hnone
        cases hnone
    have hnot := List.findIdx?_eq_none_iff.mp haround g hg
    simp only [Bool.and_eq_false_iff, decide_eq_false_iff_not, Nat.not_lt] at hnot
    exact hnot.symm

/-- The cut of a `split?` is between the end of a form and the start of the next, or at an end of
the interior. -/
theorem split?_eq_some (h : d.split? offset = some r) :
    ∃ list left right, d.innermost? offset = some list ∧ list.isClosed ∧
      (left = list.innerStart ∨ ∃ f ∈ list.forms, left = f.stop) ∧
      (right = list.innerStop ∨ ∃ f ∈ list.forms, right = f.start) ∧
      (∀ g ∈ list.forms, g.stop ≤ left ∨ right ≤ g.start) ∧
      r = ⟨(if left < right then [.deletion left (right - left)] else []) ++
        [.insertion left (list.closing ++ [' '] ++ list.opening)], left + list.closing.length⟩ := by
  rw [split?] at h
  split at h
  · cases h
  · rename_i list hlist
    split at h
    · cases h
    · rename_i hclosed
      dsimp only at h
      refine ⟨list, _, _, hlist, by simpa using hclosed, ?_, ?_, fun g hg => ?_,
        (Option.some.inj h).symm⟩
      · split
        · rename_i f hf
          exact .inr ⟨f, (List.mem_filter.mp (List.mem_of_getLast? hf)).1, rfl⟩
        · exact .inl rfl
      · split
        · rename_i f hf
          exact .inr ⟨f, List.mem_of_find?_eq_some hf, rfl⟩
        · exact .inl rfl
      · rcases cut_outside list offset hg with hle | hle
        · refine .inl ?_
          split
          · rename_i f hf
            exact stop_le_of_lastBefore? hf hg hle
          · rename_i hnone
            have hnot := List.filter_eq_nil_iff.mp (List.getLast?_eq_none_iff.mp hnone) g hg
            exact absurd (decide_eq_true hle) hnot
        · refine .inr ?_
          split
          · rename_i f hf
            exact start_le_of_firstAfter? hf hg hle
          · rename_i hnone
            exact absurd (decide_eq_true hle) (List.find?_eq_none.mp hnone g hg)

theorem split?_fits (h : d.split? offset = some r) : r.Fits d.length := by
  obtain ⟨list, left, right, hlist, -, hleft, hright, -, rfl⟩ := split?_eq_some h
  obtain ⟨hplaced, hframed, -⟩ := framed_of_innermost? hlist
  have hstop := hplaced.stop_le
  have hstart := hframed.innerStart_eq
  have hbounds := hframed.inner_bounds
  have hleft : left ≤ list.innerStop := by
    rcases hleft with rfl | ⟨f, hf, rfl⟩
    · omega
    · exact (hframed.bounds_of_mem hf).2.2
  have hright : right ≤ list.innerStop := by
    rcases hright with rfl | ⟨f, hf, rfl⟩
    · omega
    · have hin := hframed.bounds_of_mem hf
      omega
  have hnew : (list.closing ++ [' '] ++ list.opening).length = list.closing.length + 2 := by
    rw [List.length_append, List.length_append, hframed.opening_length]
    rfl
  by_cases hgap : left < right
  · rw [if_pos hgap]
    refine ⟨.deletion (by omega) (.insertion (by omega) .nil), ?_⟩
    show left + list.closing.length ≤ d.length - (right - left) + _
    omega
  · rw [if_neg hgap]
    refine ⟨.insertion (by omega) .nil, ?_⟩
    show left + list.closing.length ≤ d.length + _
    omega

theorem wrap?_fits (hoffset : offset ≤ d.length)
    (ho : ∀ other, o.otherEnd = some other → other ≤ d.length)
    (h : d.wrap? offset o = some r) : r.Fits d.length := by
  have haround : ∀ {start stop : Nat} {closing opening : List Char}, start ≤ stop →
      stop ≤ d.length → Edit.Fits d.length
        ⟨[.insertion stop closing, .insertion start opening], start + opening.length⟩ := by
    intro start stop closing opening hstart hstop
    refine ⟨.insertion hstop (.insertion (by omega) .nil), ?_⟩
    show start + opening.length ≤ d.length + closing.length + opening.length
    omega
  rw [wrap?] at h
  dsimp only at h
  split at h
  · rename_i start stop hregion
    obtain ⟨other, hother, rfl, rfl, hlt⟩ := Edit.Options.region?_eq_some hregion
    have hle := ho other hother
    split at h
    · obtain rfl := Option.some.inj h
      exact haround (by omega) (by omega)
    · cases h
  · split at h
    · rename_i f hform
      have hmem : f ∈ (d.container offset).forms := by
        split at hform
        · rename_i g hg
          obtain rfl := Option.some.inj hform
          exact List.mem_of_find?_eq_some hg
        · exact List.mem_of_find?_eq_some hform
      obtain rfl := Option.some.inj h
      exact haround f.start_le_stop (stop_le_of_mem_container hmem)
    · obtain rfl := Option.some.inj h
      refine ⟨.insertion hoffset .nil, ?_⟩
      rw [Change.resized_insertion, Change.resized_nil, List.length_append]
      dsimp only
      omega

/-- The forms that `neighbours?` finds are in the container, the first before the second. -/
theorem neighbours?_bounds {c f g : Form} (h : neighbours? c.forms offset = some (f, g)) :
    f ∈ c.forms ∧ g ∈ c.forms ∧ f.stop ≤ g.start := by
  rw [neighbours?] at h
  split at h
  · rename_i i hi
    split at h
    · rename_i f' g' hf hg
      obtain ⟨rfl, rfl⟩ := Prod.mk.inj (Option.some.inj h)
      refine ⟨List.mem_of_getElem? hf, List.mem_of_getElem? hg, ?_⟩
      obtain ⟨hlt, rfl⟩ := List.getElem?_eq_some_iff.mp hf
      obtain ⟨hlt', rfl⟩ := List.getElem?_eq_some_iff.mp hg
      exact List.pairwise_iff_getElem.mp c.pairwise_forms i (i + 1) hlt hlt' (Nat.lt_succ_self i)
    · cases h
  · split at h
    · rename_i f' g' hf hg
      obtain ⟨rfl, rfl⟩ := Prod.mk.inj (Option.some.inj h)
      obtain ⟨hmem, hle⟩ := List.mem_filter.mp (List.mem_of_getLast? hf)
      have hge := List.find?_some hg
      rw [decide_eq_true_eq] at hle hge
      exact ⟨hmem, List.mem_of_find?_eq_some hg, by omega⟩
    · cases h

theorem transpose?_fits (h : d.transpose? offset = some r) : r.Fits d.length := by
  obtain ⟨⟨f, g⟩, hneighbours, rfl⟩ := Option.map_eq_some_iff.mp h
  obtain ⟨-, hg, hle⟩ := neighbours?_bounds hneighbours
  have hstop := stop_le_of_mem_container hg
  have hf := f.start_le_stop
  have hg := g.start_le_stop
  have hflength : f.length = f.stop - f.start := rfl
  have hglength : g.length = g.stop - g.start := rfl
  have hftext := f.length_text
  have hgtext := g.length_text
  refine ⟨.deletion (by omega) (.insertion (by omega)
    (.deletion (by omega) (.insertion (by omega) .nil))), ?_⟩
  show g.stop ≤ d.length - g.length + f.text.length - f.length + g.text.length
  omega

/-! ### Edits that take text away -/

theorem killRegion?_fits {start stop : Nat} (hlt : start < stop) (hstop : stop ≤ d.length)
    (h : d.killRegion? start stop = some r) : r.Fits d.length := by
  obtain ⟨-, rfl⟩ := killRegion?_eq_some h
  exact .deletion_at (by omega)

theorem kill?_fits (hoffset : offset ≤ d.length)
    (ho : ∀ other, o.otherEnd = some other → other ≤ d.length) (h : d.kill? offset o = some r) :
    r.Fits d.length := by
  rcases kill?_eq_some h with ⟨start, stop, hregion, hkill⟩ |
    ⟨-, f, hf, start, hlt, rfl, -⟩ | ⟨f, hf, stop, hlt, rfl, hstop⟩
  · obtain ⟨other, hother, rfl, rfl, hlt⟩ := Edit.Options.region?_eq_some hregion
    have hle := ho other hother
    exact killRegion?_fits hlt (by omega) hkill
  · exact .deletion_at (by omega)
  · have hle := stop_le_of_mem_container hf
    refine .deletion_at ?_
    rcases hstop with rfl | ⟨-, rfl, -⟩
    · omega
    · omega

theorem spliceKill?_fits {backward : Bool} (h : d.spliceKill? offset backward = some r) :
    r.Fits d.length := by
  obtain ⟨list, hlist, hcases⟩ := spliceKill?_eq_some h
  obtain ⟨hplaced, hframed, hoffset⟩ := framed_of_innermost? hlist
  have hstop := hplaced.stop_le
  have hstart := hframed.innerStart_eq
  have hbounds := hframed.inner_bounds
  have hopening := hframed.opening_length
  have hclosing := hframed.closing_length
  rcases hcases with ⟨right, hright, rfl⟩ | ⟨left, hleft, rfl⟩
  · have hright : list.start ≤ right ∧ right ≤ list.innerStop := by
      rcases hright with rfl | rfl | ⟨f, hf, rfl⟩
      · omega
      · omega
      · have hin := hframed.bounds_of_mem hf
        omega
    by_cases hclosed : list.isClosed
    · have hend := hframed.innerStop_of_isClosed hclosed
      rw [if_pos hclosed]
      refine ⟨.deletion (by omega) (.deletion (by omega) .nil), ?_⟩
      show list.start ≤ d.length - list.closing.length - (right - list.start)
      omega
    · rw [if_neg hclosed]
      exact .deletion_at (by omega)
  · have hleft : list.start + 1 ≤ left ∧ left ≤ list.innerStop := by
      rcases hleft with rfl | rfl | ⟨f, hf, rfl⟩
      · omega
      · omega
      · have hin := hframed.bounds_of_mem hf
        omega
    refine ⟨.deletion (by omega) (.deletion (by omega) .nil), ?_⟩
    show left - list.opening.length ≤ d.length - (list.stop - left) - list.opening.length
    omega

/-- A delimiter that goes with its partner goes with the whole collection: the fate
`withPartner`. -/
theorem delimiterFate?_withPartner {pos start n : Nat} {k : Kind}
    (h : d.delimiterFate? pos = some (k, .withPartner start n)) :
    ∃ list, Placed d.tree list ∧ start = list.start ∧ n = list.length := by
  rw [delimiterFate?] at h
  split at h
  · cases h
  · rename_i leaf hleaf
    split at h
    · split at h
      · cases h
      · rename_i list hlist
        obtain ⟨p, x, y, hp, hparent, -⟩ := exists_parent_of_mem (List.mem_of_find?_eq_some hleaf)
        obtain ⟨hlist, -⟩ := Option.filter_eq_some_iff.mp hlist
        obtain rfl := Option.some.inj (hparent.symm.trans hlist)
        split at h
        · cases h
        · split at h
          · cases h
            exact ⟨p, hp, rfl, rfl⟩
          · cases h
    · cases h

theorem Deletes.fits {pos : Nat} {changes : List Change} (hpos : pos < d.length)
    (h : Deletes d pos changes) : Fits d.length changes := by
  cases h with
  | nothing => exact .nil
  | pair hfate =>
    obtain ⟨list, hplaced, rfl, rfl⟩ := delimiterFate?_withPartner hfate
    have hstop := hplaced.stop_le
    have hle := list.start_le_stop
    refine .deletion ?_ .nil
    rw [Form.length]
    omega
  | stray => exact .deletion hpos .nil
  | char => exact .deletion hpos .nil
  | inString _ hstring _ hle =>
    have hmem := List.mem_of_find?_eq_some (stringAt?_eq_some hstring).1
    exact .deletion (hle.trans (stop_le_of_leaf hmem)) .nil

theorem delete?_caret (hoffset : offset ≤ d.length) (h : d.delete? offset o = some r) :
    r.CaretUpto d.length := by
  have hmono : ∀ {limit : Nat}, limit ≤ d.length → r.CaretUpto limit → r.CaretUpto d.length :=
    fun hle => Or.imp (fun hmoved => ⟨hmoved.1, hmoved.2.trans hle⟩) id
  rw [delete?] at h
  split at h
  · obtain ⟨-, rfl⟩ := killRegion?_eq_some h
    exact .inr ⟨_, rfl⟩
  · split at h
    · exact hmono hoffset (deleteBackward?_deletes h).2.2
    · obtain ⟨hlt, -, hcaret⟩ := deleteForward?_deletes h
      exact hmono hlt hcaret

theorem delete?_fits (hoffset : offset ≤ d.length)
    (ho : ∀ other, o.otherEnd = some other → other ≤ d.length) (h : d.delete? offset o = some r) :
    r.Fits d.length := by
  rcases delete?_eq_some h with ⟨start, stop, hregion, hkill⟩ | ⟨pos, hpos, hdeletes⟩
  · obtain ⟨other, hother, rfl, rfl, hlt⟩ := Edit.Options.region?_eq_some hregion
    have hle := ho other hother
    exact killRegion?_fits hlt (by omega) hkill
  · have hfits := hdeletes.fits hpos
    refine ⟨hfits, ?_⟩
    rcases delete?_caret hoffset h with ⟨hnone, hcaret⟩ | ⟨k, hone⟩
    · rw [hnone]
      exact hcaret
    · rw [hone] at hfits ⊢
      cases hfits with
      | deletion hle _ =>
        show r.caret ≤ d.length - k
        omega

end Document

/-- **A structural edit `Fits` its document**, whatever its options. -/
theorem StructuralEdit.edit?_fits {e : StructuralEdit} {d : Document} {offset : Nat}
    {o : Edit.Options} {r : Edit} (hoffset : offset ≤ d.length)
    (ho : ∀ other, o.otherEnd = some other → other ≤ d.length)
    (h : e.edit? d offset o = some r) : r.Fits d.length := by
  cases e with
  | slurp => exact Document.slurp?_fits hoffset h
  | barf => exact Document.barf?_fits h
  | splice => exact Document.splice?_fits h
  | split => exact Document.split?_fits h
  | kill => exact Document.kill?_fits hoffset ho h
  | spliceKill => exact Document.spliceKill?_fits h
  | delete => exact Document.delete?_fits hoffset ho h
  | wrap => exact Document.wrap?_fits hoffset ho h
  | transpose => exact Document.transpose?_fits h

theorem StructuralEdit.otherEnd_options (e : StructuralEdit) (o : Edit.Options) :
    (e.options o).otherEnd = o.otherEnd := by
  cases e <;> rfl

theorem StructuralEdit.at?_fits {e : StructuralEdit} {d : Document} {offset : Nat}
    {o : Edit.Options} {r : Edit} (hoffset : offset ≤ d.length)
    (ho : ∀ other, o.otherEnd = some other → other ≤ d.length)
    (h : e.at? d offset o = some r) : r.Fits d.length := by
  refine edit?_fits hoffset ?_ h
  rw [e.otherEnd_options]
  exact ho

end SexpEdit
