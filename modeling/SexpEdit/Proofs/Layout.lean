/-
Where the characters of a new text come from.

The ops of a transaction count in the text before it.  What they make of that text is said offset by
offset: first what is put in there, in the order in which it was recorded, and then the character
that stood there, unless it is deleted.  Each character of the new text then has an origin, and an
offset is carried past what is put in at it, to where its character stands in the new text.

* `Op.foldr_track` — ops that passed the check, made one at a time from the last to the first, lay
  the text out in this way;
* `Op.carry_succ` — how far apart two offsets are that were next to each other;
* `Op.carry_eq_length` — an offset is carried behind all that comes before its character;
* `Op.exists_layout_delete` — a deletion leaves what is put in at its start, and nothing else.
-/
import SexpEdit.Proofs.Carrying

namespace SexpEdit.Op

/-! ### Characters and their origins -/

/-- Where a character of a new text comes from: it stood at an offset of the old text, or it was put
in at one. -/
inductive Origin where
  | kept (offset : Nat)
  | put (offset : Nat)
  deriving DecidableEq, Repr

/-- The offset in the old text that an `Origin` names. -/
def Origin.offset : Origin → Nat
  | kept n => n
  | put n => n

/-- A text after one `Op`. -/
def revise : Op → List Char → List Char
  | insert s new, cs => cs.take s ++ (new ++ cs.drop s)
  | delete s e, cs => cs.take s ++ cs.drop e

/-- One op on characters that keep their origins. -/
def track : Op → List (Char × Origin) → List (Char × Origin)
  | insert s new, xs => xs.take s ++ (new.map (·, .put s) ++ xs.drop s)
  | delete s e, xs => xs.take s ++ xs.drop e

/-- A text before any op: every character is where it was. -/
def sourced (cs : List Char) : List (Char × Origin) :=
  cs.zipIdx.map fun x => (x.1, .kept x.2)

/-- Forgetting the origins that `track` keeps leaves what the ops make of the text. -/
theorem map_fst_foldr_track (cs : List Char) (ops : List Op) :
    (ops.foldr track (sourced cs)).map Prod.fst = ops.foldr revise cs := by
  induction ops with
  | nil => simp [sourced, Function.comp_def]
  | cons op ops ih =>
    rw [List.foldr_cons, List.foldr_cons, ← ih]
    cases op <;> simp [track, revise, List.map_take, List.map_drop, Function.comp_def]

/-! ### The layout of a new text -/

/-- What is put in at the offset `n`, in the order of the ops. -/
def insertedAt (n : Nat) : List Op → List Char
  | [] => []
  | insert s new :: ops => if s = n then new ++ insertedAt n ops else insertedAt n ops
  | delete _ _ :: ops => insertedAt n ops

/-- Whether an op deletes the character at `n`. -/
def covers (n : Nat) : Op → Bool
  | insert _ _ => false
  | delete s e => s ≤ n && n < e

/-- The character of `cs` at `n`, unless one of `ops` `covers` it. -/
def keptAt (cs : List Char) (ops : List Op) (n : Nat) : List Char :=
  if ops.any (covers n) then [] else cs[n]?.toList

/-- What the offset `n` contributes to the new text: what is `insertedAt` it, and what is `keptAt`
it. -/
def slot (cs : List Char) (ops : List Op) (n : Nat) : List (Char × Origin) :=
  (insertedAt n ops).map (·, .put n) ++ (keptAt cs ops n).map (·, .kept n)

/-- What `count` offsets from `first` on contribute. -/
def slots (cs : List Char) (ops : List Op) (first count : Nat) : List (Char × Origin) :=
  (List.range' first count).flatMap (slot cs ops)

/-- The new text: the `slot` of each offset, the end of the text included. -/
def layout (cs : List Char) (ops : List Op) : List (Char × Origin) :=
  slots cs ops 0 (cs.length + 1)

theorem slots_add (cs : List Char) (ops : List Op) (first m n : Nat) :
    slots cs ops first (m + n) = slots cs ops first m ++ slots cs ops (first + m) n := by
  rw [slots, slots, slots, ← List.flatMap_append, List.range'_append_1]

theorem slots_succ (cs : List Char) (ops : List Op) (first n : Nat) :
    slots cs ops first (n + 1) = slot cs ops first ++ slots cs ops (first + 1) n := by
  rw [slots, List.range'_succ, List.flatMap_cons, slots]

theorem slots_congr {cs : List Char} {ops ops' : List Op} {first count : Nat}
    (h : ∀ n, first ≤ n → n < first + count → slot cs ops n = slot cs ops' n) :
    slots cs ops first count = slots cs ops' first count := by
  refine List.flatMap_congr fun n hn => ?_
  obtain ⟨hle, hlt⟩ := List.mem_range'_1.mp hn
  exact h n hle hlt

/-- The `layout` at an offset of the text: what comes before, the offset's own `slot`, and the
rest. -/
theorem layout_split (cs : List Char) (ops : List Op) {n : Nat} (h : n ≤ cs.length) :
    layout cs ops =
      slots cs ops 0 n ++ (slot cs ops n ++ slots cs ops (n + 1) (cs.length - n)) := by
  have hlength : cs.length + 1 = n + (cs.length - n + 1) := by omega
  rw [layout, hlength, slots_add, slots_succ, Nat.zero_add]

theorem mem_slots {cs : List Char} {ops : List Op} {first count : Nat} {x : Char × Origin}
    (h : x ∈ slots cs ops first count) : first ≤ x.2.offset ∧ x.2.offset < first + count := by
  obtain ⟨n, hn, hx⟩ := List.mem_flatMap.mp h
  have hoffset : x.2.offset = n := by
    rcases List.mem_append.mp hx with hx | hx <;> obtain ⟨c, -, rfl⟩ := List.mem_map.mp hx <;> rfl
  rw [hoffset]
  exact List.mem_range'_1.mp hn

theorem layout_nil (cs : List Char) : layout cs [] = sourced cs := by
  have hslots : ∀ n, slots cs [] 0 n = sourced (cs.take n) := by
    intro n
    induction n with
    | zero => rfl
    | succ n ih =>
      rw [slots_add, ih, slots_succ, Nat.zero_add]
      have hslot : slot cs [] n = cs[n]?.toList.map (·, .kept n) := rfl
      by_cases hn : n < cs.length
      · rw [hslot, List.take_add_one, List.getElem?_eq_getElem hn]
        rw [sourced, sourced, List.zipIdx_append, List.length_take,
          Nat.min_eq_left (Nat.le_of_lt hn)]
        simp [slots]
      · rw [hslot, List.getElem?_eq_none (Nat.le_of_not_lt hn), List.take_of_length_le (by omega),
          List.take_of_length_le (by omega)]
        simp [slots]
  rw [layout, hslots, List.take_of_length_le (Nat.le_succ _)]

/-! ### Ops that passed the check -/

variable {cs : List Char} {length last : Nat} {op : Op} {ops : List Op}

theorem bounds_of_check (h : check length last ops = .ok ()) :
    ∀ op ∈ ops, last ≤ op.start ∧ op.start ≤ op.stop ∧ op.stop ≤ length := by
  induction ops generalizing last with
  | nil =>
    intro op hop
    cases hop
  | cons a ops ih =>
    obtain ⟨hle, hstop, hlast, hops⟩ := check_cons h
    intro op hop
    rcases List.mem_cons.mp hop with rfl | hop
    · exact ⟨hlast, hle, hstop⟩
    · have hbounds := ih hops op hop
      omega

theorem insertedAt_eq_nil {n : Nat} (h : ∀ new, insert n new ∉ ops) : insertedAt n ops = [] := by
  induction ops with
  | nil => rfl
  | cons op ops ih =>
    have hrest := ih fun new hnew => h new (List.mem_cons_of_mem _ hnew)
    cases op with
    | insert s new =>
      have hne : s ≠ n := by
        rintro rfl
        exact h new List.mem_cons_self
      rw [insertedAt, if_neg hne, hrest]
    | delete s e => rw [insertedAt, hrest]

/-- Ops that pass the `check` do not touch an offset in front of all of them. -/
theorem untouched_of_lt (h : check length last ops = .ok ()) {n : Nat} (hn : n < last) :
    insertedAt n ops = [] ∧ ops.any (covers n) = false := by
  have hbounds := bounds_of_check h
  constructor
  · refine insertedAt_eq_nil fun new hnew => ?_
    have hle : last ≤ n := (hbounds _ hnew).1
    omega
  · refine List.any_eq_false.mpr fun op hop => ?_
    cases op with
    | insert s new => exact Bool.false_ne_true
    | delete s e =>
      have hle : last ≤ s := (hbounds _ hop).1
      simp only [covers, Bool.and_eq_true, decide_eq_true_eq]
      omega

theorem slot_of_lt (h : check length last ops = .ok ()) {n : Nat} (hn : n < last) :
    slot cs ops n = cs[n]?.toList.map (·, .kept n) := by
  obtain ⟨hinserted, hcovers⟩ := untouched_of_lt h hn
  rw [slot, keptAt, hinserted, hcovers]
  rfl

/-- In front of all the ops each offset contributes its character. -/
theorem length_slots_of_le (h : check cs.length last ops = .ok ()) {first count : Nat}
    (hlast : first + count ≤ last) (hlength : first + count ≤ cs.length) :
    (slots cs ops first count).length = count := by
  induction count with
  | zero => rfl
  | succ count ih =>
    rw [slots_add, List.length_append, ih (by omega) (by omega), slots_succ,
      slot_of_lt h (by omega), List.getElem?_eq_getElem (by omega)]
    simp [slots]

/-- One op in front of ops that `layout` laid out already. -/
theorem track_layout (h : check cs.length last (op :: ops) = .ok ()) :
    track op (layout cs ops) = layout cs (op :: ops) := by
  obtain ⟨hle, hstop, -, hops⟩ := check_cons h
  cases op with
  | insert s new =>
    rw [stop] at hstop hops
    have hother : ∀ n, n ≠ s → slot cs (insert s new :: ops) n = slot cs ops n := by
      intro n hn
      rw [slot, slot, insertedAt, if_neg (Ne.symm hn)]
      rfl
    have hself : slot cs (insert s new :: ops) s = new.map (·, .put s) ++ slot cs ops s := by
      rw [slot, slot, insertedAt, if_pos rfl, List.map_append, List.append_assoc]
      rfl
    have hlength : (slots cs ops 0 s).length = s := length_slots_of_le hops (by omega) (by omega)
    have hbefore : slots cs (insert s new :: ops) 0 s = slots cs ops 0 s :=
      slots_congr fun n _ hn => hother n (by omega)
    have hafter : slots cs (insert s new :: ops) (s + 1) (cs.length - s) =
        slots cs ops (s + 1) (cs.length - s) :=
      slots_congr fun n hn _ => hother n (by omega)
    rw [layout_split cs ops hstop, layout_split cs _ hstop, hbefore, hself, hafter, track,
      List.take_left' hlength, List.drop_left' hlength, List.append_assoc]
  | delete s e =>
    rw [stop] at hstop hops hle
    rw [start] at hle
    have hother : ∀ n, n < s ∨ e ≤ n → slot cs (delete s e :: ops) n = slot cs ops n := by
      intro n hn
      have hcovers : covers n (delete s e) = false := by
        simp only [covers, Bool.and_eq_false_iff, decide_eq_false_iff_not]
        omega
      rw [slot, slot, keptAt, keptAt, List.any_cons, hcovers]
      rfl
    have hself : ∀ n, s ≤ n → n < e → slot cs (delete s e :: ops) n = [] := by
      intro n hs he
      have hcovers : covers n (delete s e) = true := by simp [covers, hs, he]
      rw [slot, keptAt, insertedAt, (untouched_of_lt hops he).1, List.any_cons, hcovers]
      rfl
    -- the offsets before the deletion, those in it, and those after it
    have hsplit : cs.length + 1 = s + ((e - s) + (cs.length + 1 - e)) := by omega
    have hparts : ∀ ops', layout cs ops' = slots cs ops' 0 s ++
        (slots cs ops' s (e - s) ++ slots cs ops' e (cs.length + 1 - e)) := by
      intro ops'
      rw [layout, hsplit, slots_add, slots_add, Nat.zero_add, Nat.add_sub_of_le hle, ← hsplit]
    have hbefore : slots cs (delete s e :: ops) 0 s = slots cs ops 0 s :=
      slots_congr fun n _ hn => hother n (by omega)
    have hin : slots cs (delete s e :: ops) s (e - s) = [] := by
      refine List.flatMap_eq_nil_iff.mpr fun n hn => ?_
      obtain ⟨hge, hlt⟩ := List.mem_range'_1.mp hn
      exact hself n hge (by omega)
    have hafter : slots cs (delete s e :: ops) e (cs.length + 1 - e) =
        slots cs ops e (cs.length + 1 - e) :=
      slots_congr fun n hn _ => hother n (by omega)
    have hlength : (slots cs ops 0 s).length = s := length_slots_of_le hops (by omega) (by omega)
    have hlength' : (slots cs ops 0 s ++ slots cs ops s (e - s)).length = e := by
      have hmiddle : (slots cs ops s (e - s)).length = e - s :=
        length_slots_of_le hops (by omega) (by omega)
      rw [List.length_append, hlength, hmiddle]
      omega
    rw [hparts, hparts, hbefore, hin, hafter, track, List.take_left' hlength, ← List.append_assoc,
      List.drop_left' hlength', List.nil_append]

/-- **Ops made one at a time lay the text out.**  The ops are made from the last to the first, so
that each of them finds the text before it as it was. -/
theorem foldr_track (h : check cs.length last ops = .ok ()) :
    ops.foldr track (sourced cs) = layout cs ops := by
  induction ops generalizing last with
  | nil => exact (layout_nil cs).symm
  | cons op ops ih =>
    obtain ⟨-, -, -, hops⟩ := check_cons h
    rw [List.foldr_cons, ih hops, track_layout h]

/-! ### Offsets -/

/-- Under `totalShift`, two offsets next to each other come apart by the character between them, if
it is kept, and by what is put in at the second one. -/
theorem carry_succ (h : check length last ops = .ok ()) {n : Nat} (hn : n < cs.length) :
    ((n + 1 : Nat) : Int) + totalShift (n + 1) ops =
      n + totalShift n ops + (keptAt cs ops n).length + (insertedAt (n + 1) ops).length := by
  induction ops generalizing last with
  | nil =>
    have hkept : (keptAt cs [] n).length = 1 := by
      simp [keptAt, List.getElem?_eq_getElem hn]
    rw [totalShift, totalShift, hkept, insertedAt, List.length_nil]
    omega
  | cons op ops ih =>
    obtain ⟨hle, -, -, hops⟩ := check_cons h
    have hrest := ih hops
    simp only [totalShift]
    cases op with
    | insert s new =>
      have hkept : keptAt cs (insert s new :: ops) n = keptAt cs ops n := rfl
      rw [hkept, insertedAt, shift, shift]
      by_cases hs : s = n + 1
      · rw [if_pos hs, if_pos (by omega), if_neg (by omega), List.length_append]
        omega
      · rw [if_neg hs]
        by_cases hlt : s ≤ n
        · rw [if_pos (by omega), if_pos hlt]
          omega
        · rw [if_neg (by omega), if_neg hlt]
          omega
    | delete s e =>
      rw [start, stop] at hle
      rw [stop] at hops
      rw [insertedAt, shift, shift]
      by_cases hcovers : s ≤ n ∧ n < e
      · -- no other op deletes the character as well
        have hkept : (keptAt cs ops n).length = 1 := by
          rw [keptAt, (untouched_of_lt hops hcovers.2).2, List.getElem?_eq_getElem hn]
          rfl
        have hkept' : keptAt cs (delete s e :: ops) n = [] := by
          simp [keptAt, covers, hcovers]
        rw [hkept', List.length_nil, if_neg (Nat.not_le_of_lt hcovers.2)]
        split <;> split <;> omega
      · have hkept : keptAt cs (delete s e :: ops) n = keptAt cs ops n := by
          have hfalse : covers n (delete s e) = false := by
            simp only [covers, Bool.and_eq_false_iff, decide_eq_false_iff_not]
            omega
          rw [keptAt, keptAt, List.any_cons, hfalse]
          rfl
        rw [hkept]
        split <;> split <;> (try split) <;> omega

theorem totalShift_zero (ops : List Op) : totalShift 0 ops = (insertedAt 0 ops).length := by
  induction ops with
  | nil => rfl
  | cons op ops ih =>
    rw [totalShift, ih]
    cases op with
    | insert s new =>
      rw [insertedAt, shift]
      by_cases hs : s = 0
      · rw [if_pos hs, if_pos (Nat.le_zero.mpr hs), List.length_append]
        omega
      · rw [if_neg hs, if_neg (fun hle => hs (Nat.le_zero.mp hle))]
        omega
    | delete s e =>
      rw [insertedAt, shift]
      split <;> omega

/-- **An offset is carried behind all that comes before its character**: what the offsets before it
contribute, and what is put in at it. -/
theorem carry_eq_length (h : check length last ops = .ok ()) {n : Nat} (hn : n ≤ cs.length) :
    carry ops n = (slots cs ops 0 n).length + (insertedAt n ops).length := by
  have hshift : (n : Int) + totalShift n ops =
      ((slots cs ops 0 n).length + (insertedAt n ops).length : Nat) := by
    induction n with
    | zero =>
      rw [totalShift_zero]
      simp [slots]
    | succ n ih =>
      have hslot : (slots cs ops 0 (n + 1)).length =
          (slots cs ops 0 n).length + ((insertedAt n ops).length + (keptAt cs ops n).length) := by
        rw [slots_add, slots_succ, Nat.zero_add]
        simp [slots, slot]
      rw [carry_succ h hn, ih (Nat.le_of_succ_le hn), hslot]
      omega
  rw [carry, hshift]
  rfl

/-- The offset of a character that is kept is carried by `carry` to where the character stands. -/
theorem getElem?_layout_carry (h : check length last ops = .ok ()) {n : Nat} {c : Char}
    (hc : cs[n]? = some c) (hkept : ∀ op ∈ ops, ¬op.covers n) :
    (layout cs ops)[carry ops n]? = some (c, .kept n) := by
  obtain ⟨hn, -⟩ := List.getElem?_eq_some_iff.mp hc
  have hself : slot cs ops n =
      (insertedAt n ops).map (·, Origin.put n) ++ [(c, Origin.kept n)] := by
    rw [slot, keptAt, List.any_eq_false.mpr hkept, hc]
    rfl
  have hcarry : carry ops n =
      (slots cs ops 0 n ++ (insertedAt n ops).map (·, Origin.put n)).length := by
    rw [carry_eq_length h (Nat.le_of_lt hn), List.length_append, List.length_map]
  rw [layout_split cs ops (Nat.le_of_lt hn), hself, List.append_assoc, ← List.append_assoc, hcarry,
    List.getElem?_append_right (Nat.le_refl _), Nat.sub_self]
  rfl

/-- Nothing is put in inside a deletion: `insertedAt` is empty there. -/
theorem insertedAt_of_inside (h : check length last ops = .ok ()) {s e n : Nat}
    (hmem : delete s e ∈ ops) (hs : s < n) (he : n < e) : insertedAt n ops = [] := by
  induction ops generalizing last with
  | nil => cases hmem
  | cons op ops ih =>
    obtain ⟨hle, -, -, hops⟩ := check_cons h
    rcases List.mem_cons.mp hmem with rfl | hin
    · exact (untouched_of_lt hops he).1
    · have hbefore : op.stop ≤ s := (bounds_of_check hops _ hin).1
      cases op with
      | insert a new =>
        have hne : a ≠ n := by
          rw [stop] at hbefore
          omega
        rw [insertedAt, if_neg hne, ih hops hin]
      | delete a b => rw [insertedAt, ih hops hin]

/-- **A deletion leaves what is put in at its start, and nothing else**, and its offsets are carried
behind that. -/
theorem exists_layout_delete (h : check cs.length last ops = .ok ()) {s e : Nat}
    (hmem : delete s e ∈ ops) (hlt : s < e) :
    ∃ x y, layout cs ops = x ++ ((insertedAt s ops).map (·, .put s) ++ y) ∧
      (∀ z ∈ x, z.2.offset < s) ∧ (∀ z ∈ y, e ≤ z.2.offset) ∧
      ∀ n, s ≤ n → n < e → carry ops n = x.length + (insertedAt s ops).length := by
  have hstop : e ≤ cs.length := (bounds_of_check h _ hmem).2.2
  have hkept : ∀ n, s ≤ n → n < e → keptAt cs ops n = [] := by
    intro n hs he
    have hany : ops.any (covers n) = true :=
      List.any_eq_true.mpr ⟨_, hmem, by simp [covers, hs, he]⟩
    rw [keptAt, hany]
    rfl
  have hself : slot cs ops s = (insertedAt s ops).map (·, .put s) := by
    rw [slot, hkept s (Nat.le_refl s) hlt, List.map_nil, List.append_nil]
  have hinside : ∀ count, s + 1 + count ≤ e → slots cs ops (s + 1) count = [] := by
    intro count hcount
    refine List.flatMap_eq_nil_iff.mpr fun n hn => ?_
    obtain ⟨hge, hle⟩ := List.mem_range'_1.mp hn
    rw [slot, insertedAt_of_inside h hmem (by omega) (by omega), hkept n (by omega) (by omega)]
    rfl
  have hrest : slots cs ops (s + 1) (cs.length - s) = slots cs ops e (cs.length + 1 - e) := by
    have hsplit : cs.length - s = (e - (s + 1)) + (cs.length + 1 - e) := by omega
    rw [hsplit, slots_add, hinside _ (by omega), List.nil_append, Nat.add_sub_of_le hlt]
  refine ⟨slots cs ops 0 s, slots cs ops e (cs.length + 1 - e), ?_, ?_, ?_, ?_⟩
  · rw [layout_split cs ops (show s ≤ cs.length by omega), hself, hrest]
  · intro z hz
    have hbounds := mem_slots hz
    omega
  · intro z hz
    exact (mem_slots hz).1
  · intro n hs he
    rw [carry_eq_length h (show n ≤ cs.length by omega)]
    by_cases hn : n = s
    · rw [hn]
    · -- between the start and the offset nothing is put in or kept
      have hsplit : n = s + ((n - (s + 1)) + 1) := by omega
      have hslots : slots cs ops 0 n = slots cs ops 0 s ++ (insertedAt s ops).map (·, .put s) := by
        rw [hsplit, slots_add, slots_succ, Nat.zero_add, hself, hinside _ (by omega),
          List.append_nil]
      rw [hslots, insertedAt_of_inside h hmem (by omega) he, List.length_append, List.length_map,
        List.length_nil, Nat.add_zero]

end SexpEdit.Op
