/-
TOML documents line by line.

A document is read with more fuel than it has characters, and every line takes at least one of
them.  `Toml.Reads` leaves the fuel out: a text is read into a table on top of some entries.  A pair
of a key and a value adds an entry, a header starts a table, and an empty line changes nothing.

* `Toml.Reads.pair`, `Toml.Reads.header`, `Toml.Reads.feed` — what a line does;
* `Toml.readValue?_renderString` — a string is a value;
* `Toml.readValue?_toDigits` — and so is a whole number, by its decimal digits;
* `Toml.readItems?_rows` — the items of an array on a line each.
-/
import SexpEdit.Proofs.Quoting
import SexpEdit.Toml.Reader

namespace SexpEdit.Toml

/-! ### Blanks -/

/-- Whether a character is none that may be dropped between things. -/
def isSolid (c : Char) : Bool :=
  c != ' ' && c != '\t' && c != '\n' && c != '\r' && c != '#'

theorem isSolid_of_isBare {c : Char} (h : isBare c = true) : isSolid c = true := by
  have hne : ∀ d, isBare d = false → c ≠ d := by
    rintro d hd rfl
    exact Bool.eq_false_iff.mp hd h
  simp [isSolid, hne ' ' (by decide), hne '\t' (by decide), hne '\n' (by decide),
    hne '\r' (by decide), hne '#' (by decide)]

theorem ne_of_isSolid {c d : Char} (hc : isSolid c = true) (hd : isSolid d = false) : c ≠ d := by
  rintro rfl
  exact Bool.eq_false_iff.mp hd hc

theorem dropBlanks_of_isSolid {c : Char} (h : isSolid c = true) (t : List Char) :
    dropBlanks (c :: t) = c :: t := by
  refine List.dropWhile_cons_of_neg ?_
  simp only [isSolid, Bool.and_eq_true, bne_iff_ne] at h
  simp [h.1.1.1.1, h.1.1.1.2]

theorem dropComment?_of_isSolid {c : Char} (h : isSolid c = true) (t : List Char) :
    dropComment? (c :: t) = some (c :: t) := by
  rw [dropComment?]
  exact fun u hu => ne_of_isSolid h rfl (List.cons.inj hu).1

theorem dropBlanks_space (t : List Char) : dropBlanks (' ' :: t) = dropBlanks t :=
  List.dropWhile_cons_of_pos rfl

theorem dropLines?_of_dropBlanks {c : Char} (h : isSolid c = true) {t cs : List Char}
    (hcs : dropBlanks cs = c :: t) (fuel : Nat) : dropLines? (fuel + 1) cs = some (c :: t) := by
  rw [dropLines?, hcs, dropComment?_of_isSolid h]
  split
  · next heq => exact absurd (List.cons.inj (Option.some.inj heq)).1 (ne_of_isSolid h rfl)
  · next heq => exact absurd (List.cons.inj (Option.some.inj heq)).1 (ne_of_isSolid h rfl)
  · rfl

theorem dropSpace?_of_isSolid {c : Char} (h : isSolid c = true) (t : List Char) :
    dropSpace? (c :: t) = some (c :: t) :=
  dropLines?_of_dropBlanks h (dropBlanks_of_isSolid h t) _

/-- A line end and the margin of the next line are dropped, up to a character that `isSolid`. -/
theorem dropSpace?_feed {c : Char} (h : isSolid c = true) (n : Nat) (t : List Char) :
    dropSpace? ('\n' :: (List.replicate n ' ' ++ c :: t)) = some (c :: t) := by
  have hspaces : dropBlanks (List.replicate n ' ' ++ c :: t) = c :: t := by
    induction n with
    | zero => exact dropBlanks_of_isSolid h t
    | succ n ih => rw [List.replicate_succ, List.cons_append, dropBlanks_space, ih]
  exact dropLines?_of_dropBlanks h hspaces _

/-! ### Strings and numbers as values -/

theorem readValue?_renderString (depth : Nat) (cs : List Char) {rest : List Char}
    (hrest : Unquoted rest) :
    readValue? (depth + 1) (renderString cs ++ rest) = some (.string cs, rest) := by
  have hread := readString?_renderString cs hrest
  obtain ⟨q, t, hq, rfl | rfl⟩ := exists_renderString cs
  · rw [hq, List.cons_append] at hread ⊢
    rw [readValue?, hread]
    rfl
  · rw [hq, List.cons_append] at hread ⊢
    rw [readValue?, hread]
    rfl

/-- A `scalarWord` ends with its line. -/
theorem scalarWord_append {word : List Char} (h : ∀ c ∈ word, isWordChar c = true)
    (rest : List Char) : scalarWord (word ++ '\n' :: rest) = word := by
  have htake : (word ++ '\n' :: rest).takeWhile isWordChar = word := by
    rw [List.takeWhile_append_of_pos h, List.takeWhile_cons_of_neg (by decide), List.append_nil]
  simp only [scalarWord, htake, List.drop_left]
  split
  · next heq => cases heq
  · rfl

theorem isDigitRun_of_forall {cs : List Char} (hne : cs ≠ []) (h : ∀ c ∈ cs, c.isDigit = true) :
    isDigitRun Char.isDigit cs = true := by
  induction cs with
  | nil => exact absurd rfl hne
  | cons c cs ih =>
    rw [List.forall_mem_cons] at h
    cases cs with
    | nil => exact h.1
    | cons d cs =>
      rw [isDigitRun, h.1, ih (List.cons_ne_nil d cs) h.2]
      · rfl
      · exact List.cons_ne_nil d cs
      · rintro u hu
        have hd := h.2 d List.mem_cons_self
        rw [(List.cons.inj hu).1] at hd
        exact absurd hd (by decide)

theorem hexDigit?_of_isDigit {c : Char} (h : c.isDigit = true) :
    hexDigit? c = some (c.toNat - '0'.toNat) := by
  rw [hexDigit?, if_pos h]

theorem digitsValue_of_forall {cs : List Char} (h : ∀ c ∈ cs, c.isDigit = true) :
    digitsValue 10 cs = Nat.ofDigitChars 10 cs 0 := by
  rw [digitsValue, Nat.ofDigitChars]
  generalize 0 = n
  induction cs generalizing n with
  | nil => rfl
  | cons c cs ih =>
    rw [List.forall_mem_cons] at h
    rw [List.foldl_cons, List.foldl_cons, hexDigit?_of_isDigit h.1]
    exact ih h.2 _

theorem isDigit_of_mem_toDigits {n : Nat} : ∀ c ∈ Nat.toDigits 10 n, c.isDigit = true :=
  fun _ => Nat.isDigit_of_mem_toDigits (by decide) (Nat.le_refl 10)

theorem digitsValue_toDigits (n : Nat) : digitsValue 10 (Nat.toDigits 10 n) = n := by
  rw [digitsValue_of_forall isDigit_of_mem_toDigits]
  exact Nat.ofDigitChars_toDigits (by decide) (Nat.le_refl 10)

/-- Only the number zero starts with a zero. -/
theorem head?_toDigits {n : Nat} (hn : 0 < n) : (Nat.toDigits 10 n).head? ≠ some '0' := by
  induction n using Nat.strongRecOn with
  -- the first digit is that of the number without its last digit
  | ind n ih =>
    by_cases hlt : n < 10
    · have hdigit : ∀ n < 10, 0 < n → n.digitChar ≠ '0' := by decide
      rw [Nat.toDigits_of_lt_base hlt]
      exact fun heq => hdigit n hlt hn (Option.some.inj heq)
    · have hhead := ih (n / 10) (by omega) (by omega)
      rw [Nat.toDigits_of_base_le (by decide) (Nat.not_lt.mp hlt)]
      obtain ⟨d, ds, hds⟩ := List.exists_cons_of_ne_nil (@Nat.toDigits_ne_nil (n / 10) 10)
      rw [hds] at hhead ⊢
      exact hhead

theorem isDecimal_toDigits (n : Nat) : isDecimal (Nat.toDigits 10 n) = true := by
  rw [isDecimal, isDigitRun_of_forall Nat.toDigits_ne_nil isDigit_of_mem_toDigits, Bool.true_and]
  intro d ds heq
  rcases Nat.eq_zero_or_pos n with rfl | hn
  · cases heq
  · exact head?_toDigits hn (by rw [heq]; rfl)

theorem sign_of_forall {cs : List Char} (h : ∀ c ∈ cs, c.isDigit = true) :
    sign cs = (false, cs) := by
  rw [sign]
  · rintro u rfl
    exact absurd (h '+' List.mem_cons_self) (by decide)
  · rintro u rfl
    exact absurd (h '-' List.mem_cons_self) (by decide)

theorem integer?_toDigits (n : Nat) : integer? (Nat.toDigits 10 n) = some (n : Int) := by
  have hsecond : ∀ d ds, d.isDigit = false → Nat.toDigits 10 n ≠ '0' :: d :: ds := by
    intro d ds hd heq
    have hmem := @isDigit_of_mem_toDigits n d (by rw [heq]; simp)
    exact Bool.eq_false_iff.mp hd hmem
  rw [integer?]
  · simp only [sign_of_forall isDigit_of_mem_toDigits, isDecimal_toDigits, digitsValue_toDigits,
      if_true, Bool.false_eq_true, if_false]
  · exact fun ds => hsecond 'x' ds (by decide)
  · exact fun ds => hsecond 'o' ds (by decide)
  · exact fun ds => hsecond 'b' ds (by decide)

theorem readValue?_word {word : List Char} (hne : word ≠ [])
    (h : ∀ c ∈ word, isWordChar c = true) (depth : Nat) (rest : List Char) :
    readValue? (depth + 1) (word ++ '\n' :: rest) = readScalar? (word ++ '\n' :: rest) := by
  obtain ⟨c, cs, rfl⟩ := List.exists_cons_of_ne_nil hne
  have hc := h c List.mem_cons_self
  have hother : ∀ d, isWordChar d = false → ∀ t, c :: cs ++ '\n' :: rest ≠ d :: t := by
    intro d hd t heq
    rw [(List.cons.inj heq).1] at hc
    exact Bool.eq_false_iff.mp hd hc
  rw [readValue?]
  · exact hother '[' (by decide)
  · exact hother '\x7b' (by decide)
  · exact hother '"' (by decide)
  · exact hother '\'' (by decide)

/-- A number on a line is read by its digits, those of `Nat.toDigits`. -/
theorem readValue?_toDigits (depth n : Nat) (rest : List Char) :
    readValue? (depth + 1) (Nat.toDigits 10 n ++ '\n' :: rest) =
      some (.integer n, '\n' :: rest) := by
  have hword : ∀ c ∈ Nat.toDigits 10 n, isWordChar c = true := by
    intro c hc
    simp [isWordChar, Char.isAlphanum, isDigit_of_mem_toDigits c hc]
  have hnot : ∀ word : List Char, (∃ c ∈ word, c.isDigit = false) →
      ¬(Nat.toDigits 10 n == word) = true := by
    rintro word ⟨c, hc, hdigit⟩ heq
    rw [← eq_of_beq heq] at hc
    exact Bool.eq_false_iff.mp hdigit (isDigit_of_mem_toDigits c hc)
  rw [readValue?_word Nat.toDigits_ne_nil hword]
  simp only [readScalar?, scalarWord_append hword, List.drop_left]
  rw [if_neg (hnot _ ⟨'t', by decide, rfl⟩), if_neg (hnot _ ⟨'f', by decide, rfl⟩),
    integer?_toDigits]

theorem readValue?_boolean (depth : Nat) (b : Bool) (rest : List Char) :
    readValue? (depth + 1) ((if b then "true".toList else "false".toList) ++ '\n' :: rest) =
      some (.boolean b, '\n' :: rest) := by
  have hword : ∀ c ∈ (if b then "true".toList else "false".toList), isWordChar c = true := by
    rw [← List.all_eq_true]
    cases b <;> rfl
  have hne : (if b then "true".toList else "false".toList) ≠ [] := by
    cases b <;> decide
  rw [readValue?_word hne hword]
  simp only [readScalar?, scalarWord_append hword, List.drop_left]
  cases b <;> rfl

/-! ### Arrays -/

section Items

variable {value? : List Char → Option (Value × List Char)} {fuel : Nat} {cs t rest : List Char}
  {c : Char} {v : Value}

theorem readItems?_close (h : dropSpace? cs = some (']' :: rest)) :
    readItems? value? (fuel + 1) cs = some ([], rest) := by
  simp only [readItems?, h]

theorem readItems?_item (h : dropSpace? cs = some (c :: t)) (hc : c ≠ ']')
    (hv : value? (c :: t) = some (v, ',' :: rest)) :
    readItems? value? (fuel + 1) cs =
      (readItems? value? fuel rest).map fun r => (v :: r.1, r.2) := by
  have hcomma : dropSpace? (',' :: rest) = some (',' :: rest) := dropSpace?_of_isSolid rfl rest
  rw [readItems?, h]
  split
  · next heq => cases heq
  · next heq => exact absurd (List.cons.inj (Option.some.inj heq)).1 hc
  · next heq =>
    obtain rfl := Option.some.inj heq
    simp only [hv, hcomma]
    cases readItems? value? fuel rest with
    | none => rfl
    | some r => rfl

theorem readItems?_last (h : dropSpace? cs = some (c :: t)) (hc : c ≠ ']')
    (hv : value? (c :: t) = some (v, ']' :: rest)) :
    readItems? value? (fuel + 1) cs = some ([v], rest) := by
  have hbracket : dropSpace? (']' :: rest) = some (']' :: rest) := dropSpace?_of_isSolid rfl rest
  rw [readItems?, h]
  split
  · next heq => cases heq
  · next heq => exact absurd (List.cons.inj (Option.some.inj heq)).1 hc
  · next heq =>
    obtain rfl := Option.some.inj heq
    simp only [hv, hbracket]

end Items

/-- The `items` of an array on a line each, from the end of the line before them on. -/
def rows (items : List (List Char)) : List Char :=
  '\n' :: items.flatMap fun s => "    ".toList ++ renderString s ++ ",\n".toList

theorem rows_cons (s : List Char) (items : List (List Char)) :
    rows (s :: items) =
      '\n' :: (List.replicate 4 ' ' ++ (renderString s ++ ',' :: rows items)) := by
  simp [rows]

theorem quote_ne_bracket {q : Char} (h : q = '"' ∨ q = '\'') : isSolid q = true ∧ q ≠ ']' := by
  rcases h with rfl | rfl <;> decide

/-- The `rows` of items are read one by one, up to the bracket. -/
theorem readItems?_rows (depth : Nat) (rest : List Char) {items : List (List Char)} :
    ∀ {fuel : Nat}, items.length < fuel →
      readItems? (readValue? (depth + 1)) fuel (rows items ++ ']' :: rest) =
        some (items.map .string, rest) := by
  induction items with
  | nil =>
    intro fuel hfuel
    obtain ⟨fuel, rfl⟩ := Nat.exists_eq_add_one.mpr hfuel
    exact readItems?_close (dropSpace?_feed rfl 0 rest)
  | cons s items ih =>
    intro fuel hfuel
    obtain ⟨fuel, rfl⟩ := Nat.exists_eq_add_one.mpr (Nat.zero_lt_of_lt hfuel)
    have hvalue := readValue?_renderString depth s
      (unquoted_cons (c := ',') (by decide) (by decide) (rows items ++ ']' :: rest))
    obtain ⟨q, t, hq, hquote⟩ := exists_renderString s
    obtain ⟨hsolid, hne⟩ := quote_ne_bracket hquote
    rw [hq] at hvalue
    rw [rows_cons, hq]
    simp only [List.cons_append, List.append_assoc] at hvalue ⊢
    rw [readItems?_item (dropSpace?_feed hsolid 4 _) hne hvalue,
      ih (Nat.lt_of_succ_lt_succ hfuel)]
    rfl

theorem length_lt_rows (items : List (List Char)) : items.length < (rows items).length := by
  induction items with
  | nil => decide
  | cons s items ih =>
    rw [rows_cons]
    simp only [List.length_cons, List.length_append]
    omega

/-- An array with one item on its line. -/
theorem readItems?_single (depth fuel : Nat) (s rest : List Char) :
    readItems? (readValue? (depth + 1)) (fuel + 1) (renderString s ++ ']' :: rest) =
      some ([.string s], rest) := by
  have hvalue := readValue?_renderString depth s
    (unquoted_cons (c := ']') (by decide) (by decide) rest)
  obtain ⟨q, t, hq, hquote⟩ := exists_renderString s
  obtain ⟨hsolid, hne⟩ := quote_ne_bracket hquote
  rw [hq, List.cons_append] at hvalue ⊢
  exact readItems?_last (dropSpace?_of_isSolid hsolid _) hne hvalue

theorem readValue?_array {depth : Nat} {body rest : List Char} {items : List Value}
    (h : ∀ fuel, body.length < fuel →
      readItems? (readValue? depth) fuel body = some (items, rest)) :
    readValue? (depth + 1) ('[' :: body) = some (.array items, rest) := by
  rw [readValue?, h _ (Nat.lt_succ_self _)]
  rfl

/-! ### Entries -/

theorem find?_eq_none_iff {key : List Char} {es : List Entry} :
    find? key es = none ↔ key ∉ es.map Prod.fst := by
  induction es with
  | nil => simp [find?]
  | cons e es ih =>
    rw [find?, List.map_cons, List.mem_cons, not_or, ← ih]
    by_cases he : e.1 = key
    · simp [he]
    · simp [he, Ne.symm he]

theorem find?_append {key : List Char} {es : List Entry} (h : key ∉ es.map Prod.fst)
    (es' : List Entry) : find? key (es ++ es') = find? key es' := by
  induction es with
  | nil => rfl
  | cons e es ih =>
    rw [List.map_cons, List.mem_cons, not_or] at h
    rw [List.cons_append, find?, if_neg (Ne.symm h.1), ih h.2]

theorem replace_append {key : List Char} {es : List Entry} (h : key ∉ es.map Prod.fst)
    (value : Value) (es' : List Entry) :
    replace key value (es ++ es') = es ++ replace key value es' := by
  induction es with
  | nil => rfl
  | cons e es ih =>
    rw [List.map_cons, List.mem_cons, not_or] at h
    rw [List.cons_append, replace, if_neg (Ne.symm h.1), ih h.2, List.cons_append]

theorem define?_of_not_mem {key : List Char} {es : List Entry} (h : key ∉ es.map Prod.fst)
    (value : Value) : define? value [key] es = some (es ++ [(key, value)]) := by
  rw [define?, find?_eq_none_iff.mpr h]

/-- The value is added to the table `name` of a header that comes last. -/
theorem inside?_last {name key : List Char} {es sub : List Entry} (hname : name ∉ es.map Prod.fst)
    (hkey : key ∉ sub.map Prod.fst) (value : Value) :
    inside? (define? value [key]) [name] (es ++ [(name, .table .header sub)]) =
      some (es ++ [(name, .table .header (sub ++ [(key, value)]))]) := by
  have hfind : find? name (es ++ [(name, .table .header sub)]) = some (.table .header sub) := by
    rw [find?_append hname, find?, if_pos rfl]
  simp only [inside?, hfind, define?_of_not_mem hkey, Option.map_some, replace_append hname]
  rw [replace, if_pos rfl]

/-! ### Keys and pairs -/

/-- A key starts with a character that `isSolid` and is not `[`. -/
theorem exists_renderKey_cons (key : List Char) :
    ∃ c t, renderKey key = c :: t ∧ isSolid c = true ∧ c ≠ '[' := by
  obtain ⟨c, t, h, hc | rfl | rfl⟩ := exists_renderKey key
  · refine ⟨c, t, h, isSolid_of_isBare hc, ?_⟩
    rintro rfl
    exact absurd hc (by decide)
  · exact ⟨_, t, h, by decide, by decide⟩
  · exact ⟨_, t, h, by decide, by decide⟩

/-- What `renderKey` writes is read with the blanks behind it. -/
theorem readKey?_renderKey {key t u : List Char} {c : Char} (ht : ∀ d ∈ t.head?, isBare d = false)
    (hblanks : dropBlanks t = c :: u) (hdot : c ≠ '.') :
    readKey? (renderKey key ++ t) = some ([key], c :: u) := by
  have hstart : dropBlanks (renderKey key ++ t) = renderKey key ++ t := by
    obtain ⟨d, v, hd, hsolid, -⟩ := exists_renderKey_cons key
    rw [hd]
    exact dropBlanks_of_isSolid hsolid _
  rw [readKey?, readKeyParts?, hstart, readSimpleKey?_renderKey key ht]
  simp only [hblanks]
  split
  · next heq => exact absurd (List.cons.inj heq).1 hdot
  · next heq => rfl

theorem readPair?_renderKey (value? : List Char → Option (Value × List Char)) {c : Char}
    {text u : List Char} {v : Value} (hc : isSolid c = true)
    (hvalue : value? (c :: text) = some (v, u)) (key : List Char) :
    readPair? value? (renderKey key ++ " = ".toList ++ c :: text) = some ([key], v, u) := by
  have hkey : readKey? (renderKey key ++ (" = ".toList ++ c :: text)) =
      some ([key], '=' :: ' ' :: c :: text) :=
    readKey?_renderKey (by rintro d ⟨⟩; rfl) rfl (by decide)
  have hblank : dropBlanks (' ' :: c :: text) = c :: text := by
    rw [dropBlanks_space, dropBlanks_of_isSolid hc]
  rw [readPair?, List.append_assoc, hkey]
  simp only [hblank, hvalue]

/-! ### Lines -/

/-- The text `cs` is read into the table at `path`, on top of the entries `es`. -/
def Reads (path : List (List Char)) (es : List Entry) (cs : List Char) (result : List Entry) :
    Prop :=
  ∀ fuel, cs.length < fuel → readLines? fuel path es cs = some result

namespace Reads

variable {path : List (List Char)} {es es' result : List Entry} {rest : List Char}

theorem nil (path : List (List Char)) (es : List Entry) : Reads path es [] es := by
  intro fuel hfuel
  obtain ⟨fuel, rfl⟩ := Nat.exists_eq_add_one.mpr hfuel
  rfl

/-- An empty line changes nothing. -/
theorem feed (h : Reads path es rest result) : Reads path es ('\n' :: rest) result := by
  intro fuel hfuel
  obtain ⟨fuel, rfl⟩ := Nat.exists_eq_add_one.mpr (Nat.zero_lt_of_lt hfuel)
  exact h fuel (Nat.lt_of_succ_lt_succ hfuel)

/-- A pair adds its entry to the table at `path`. -/
theorem pair {key text : List Char} {v : Value} (htext : ∃ c t, text = c :: t ∧ isSolid c = true)
    (hvalue : readValue? maxDepth (text ++ '\n' :: rest) = some (v, '\n' :: rest))
    (hentry : inside? (define? v [key]) path es = some es') (h : Reads path es' rest result) :
    Reads path es (renderKey key ++ " = ".toList ++ text ++ '\n' :: rest) result := by
  intro fuel hfuel
  obtain ⟨fuel, rfl⟩ := Nat.exists_eq_add_one.mpr (Nat.zero_lt_of_lt hfuel)
  obtain ⟨c, t, rfl, hc⟩ := htext
  rw [List.cons_append] at hvalue
  have hpair := readPair?_renderKey (readValue? maxDepth) hc hvalue key
  have hend : endLine? ('\n' :: rest) = some rest := rfl
  have hrest : rest.length < fuel := by
    simp only [List.length_append, List.length_cons] at hfuel
    omega
  -- the first character of the key says that the line is a pair
  obtain ⟨k, u, hk, hsolid, hbracket⟩ := exists_renderKey_cons key
  rw [List.append_assoc]
  rw [hk] at hpair ⊢
  simp only [List.cons_append] at hpair ⊢
  have hplain : ¬(k = '\n' || k = '\r' || k = '#') = true := by
    simp [ne_of_isSolid hsolid (d := '\n') rfl, ne_of_isSolid hsolid (d := '\r') rfl,
      ne_of_isSolid hsolid (d := '#') rfl]
  rw [readLines?, dropBlanks_of_isSolid hsolid]
  split
  · next heq => cases heq
  · next heq => exact absurd (List.cons.inj heq).1 hbracket
  · next heq => exact absurd (List.cons.inj heq).1 hbracket
  · next heq =>
    obtain ⟨rfl, rfl⟩ := List.cons.inj heq
    rw [if_neg hplain, hpair]
    simp only [hentry, hend]
    exact h fuel hrest

/-- A header starts a table. -/
theorem header {key : List Char} (hopen : openTable? key es = some es')
    (h : Reads [key] es' rest result) :
    Reads path es ('[' :: (renderKey key ++ ']' :: '\n' :: rest)) result := by
  intro fuel hfuel
  obtain ⟨fuel, rfl⟩ := Nat.exists_eq_add_one.mpr (Nat.zero_lt_of_lt hfuel)
  have hkey : readKey? (renderKey key ++ ']' :: '\n' :: rest) = some ([key], ']' :: '\n' :: rest) :=
    readKey?_renderKey (by rintro d ⟨⟩; rfl) rfl (by decide)
  have hheader : readHeader? [']'] openTable? es (renderKey key ++ ']' :: '\n' :: rest) =
      some ([key], es', rest) := by
    have hend : endLine? ('\n' :: rest) = some rest := rfl
    rw [readHeader?, hkey]
    simp [hend, inside?, hopen]
  have hrest : rest.length < fuel := by
    simp only [List.length_append, List.length_cons] at hfuel
    omega
  -- a second bracket would make it the header of an array of tables
  obtain ⟨k, u, hk, -, hbracket⟩ := exists_renderKey_cons key
  rw [readLines?, dropBlanks_of_isSolid (by decide)]
  split
  · next heq => cases heq
  · next heq =>
    rw [hk, List.cons_append] at heq
    exact absurd (List.cons.inj (List.cons.inj heq).2).1 hbracket
  · next heq =>
    rw [← (List.cons.inj heq).2, hheader]
    exact h fuel hrest
  · next hother heq => exact (hother (List.cons.inj heq).1.symm).elim

end Reads

end SexpEdit.Toml
