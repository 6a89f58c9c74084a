/-
Strings and keys of TOML, there and back.

A string is written in one of four ways and a key in one of three, and what is written is read as
what it was, whatever the characters are.  Behind the string something else than a quote has to
follow: between tripled quotes up to two more of them belong to the string.

In a string of several lines the reader looks three characters ahead, so quotes are read together
with what follows them.  The statements about them therefore have up to two quotes in front that are
still to be read.

* `Toml.escapeChar_cases` — the three ways to write a character in double quotes;
* `Toml.ReadsEscapes.escapeChar` — either reader of double quotes undoes them;
* `Toml.readLongBasic?_escapeLong`, `Toml.readLongLiteral?_append` — strings of several lines;
* `Toml.readString?_renderString` — every string is read as what was written;
* `Toml.readSimpleKey?_renderKey` — and so is every key.
-/
import SexpEdit.Toml.Quoted

namespace SexpEdit.Toml

/-! ### Characters -/

theorem map_hexDigit?_hexCode : ∀ n < 128,
    (hexCode n).map hexDigit? = [some 0, some 0, some (n / 16), some (n % 16)] := by
  decide +kernel

theorem toNat_lt_of_isControl {c : Char} (h : isControl c = true) : c.toNat < 128 := by
  simp only [isControl, Bool.or_eq_true, Bool.and_eq_true, decide_eq_true_eq, beq_iff_eq] at h
  omega

theorem charOf?_toNat (c : Char) : charOf? c.toNat = some c := by
  have hvalid : c.toNat.isValidChar := c.valid
  rw [charOf?, if_pos hvalid, Char.ofNat_toNat]

/-- The `hexCode` of a control character has four digits, of which two are zero. -/
theorem exists_hexCode {c : Char} (h : isControl c = true) :
    ∃ x y z w i j, hexCode c.toNat = [x, y, z, w] ∧ hexDigit? x = some 0 ∧ hexDigit? y = some 0 ∧
      hexDigit? z = some i ∧ hexDigit? w = some j ∧
      charOf? (16 * (16 * (16 * (16 * 0 + 0) + 0) + i) + j) = some c := by
  have hdigits := map_hexDigit?_hexCode c.toNat (toNat_lt_of_isControl h)
  obtain ⟨x, xs, hcode, hx, hdigits⟩ := List.map_eq_cons_iff.mp hdigits
  obtain ⟨y, ys, rfl, hy, hdigits⟩ := List.map_eq_cons_iff.mp hdigits
  obtain ⟨z, zs, rfl, hz, hdigits⟩ := List.map_eq_cons_iff.mp hdigits
  obtain ⟨w, ws, rfl, hw, hdigits⟩ := List.map_eq_cons_iff.mp hdigits
  obtain rfl := List.map_eq_nil_iff.mp hdigits
  have hvalue : 16 * (16 * (16 * (16 * 0 + 0) + 0) + c.toNat / 16) + c.toNat % 16 = c.toNat := by
    omega
  exact ⟨x, y, z, w, _, _, hcode, hx, hy, hz, hw, by rw [hvalue, charOf?_toNat]⟩

/-- Under `escapeChar` a character stands for itself, or is a backslash and a letter, or a backslash
and a code point. -/
theorem escapeChar_cases (c : Char) :
    (escapeChar c = [c] ∧ c ≠ '"' ∧ c ≠ '\\' ∧ isControl c = false) ∨
      (∃ d, escapeChar c = ['\\', d] ∧ shortEscape? d = some c) ∨
      (escapeChar c = '\\' :: 'u' :: hexCode c.toNat ∧ isControl c = true) := by
  unfold escapeChar
  split
  · next h => exact .inr (.inl ⟨'b', rfl, by rw [eq_of_beq h]; rfl⟩)
  split
  · next h => exact .inr (.inl ⟨'t', rfl, by rw [eq_of_beq h]; rfl⟩)
  split
  · next h => exact .inr (.inl ⟨'n', rfl, by rw [eq_of_beq h]; rfl⟩)
  split
  · next h => exact .inr (.inl ⟨'f', rfl, by rw [eq_of_beq h]; rfl⟩)
  split
  · next h => exact .inr (.inl ⟨'r', rfl, by rw [eq_of_beq h]; rfl⟩)
  split
  · next h => exact .inr (.inl ⟨'"', rfl, by rw [eq_of_beq h]; rfl⟩)
  split
  · next h => exact .inr (.inl ⟨'\\', rfl, by rw [eq_of_beq h]; rfl⟩)
  split
  · next h => exact .inr (.inr ⟨rfl, h⟩)
  · next hquote hslash hcontrol =>
    refine .inl ⟨rfl, ?_, ?_, Bool.eq_false_iff.mpr hcontrol⟩
    · simpa using hquote
    · simpa using hslash

/-- What `readBasic?` and `readLongBasic?` have in common: how they read a character that stands for
itself, and how they read an escape. -/
structure ReadsEscapes (read : Escape → List Char → Option (List Char × List Char)) : Prop where
  plain : ∀ {c : Char} (t : List Char), c ≠ '"' → c ≠ '\\' → isControl c = false →
    read .none (c :: t) = prepend c (read .none t)
  slash : ∀ t : List Char, read .none ('\\' :: t) = read .slash t
  letter : ∀ {c d : Char} (t : List Char), shortEscape? d = some c →
    read .slash (d :: t) = prepend c (read .none t)
  code : ∀ {d : Char} {n : Nat} (t : List Char), shortEscape? d = none → codeDigits? d = some n →
    read .slash (d :: t) = read (.hex (n - 1) 0) t
  digit : ∀ {x : Char} {left value d : Nat} (t : List Char), hexDigit? x = some d →
    read (.hex (left + 1) value) (x :: t) = read (.hex left (16 * value + d)) t
  lastDigit : ∀ {x c : Char} {value d : Nat} (t : List Char), hexDigit? x = some d →
    charOf? (16 * value + d) = some c → read (.hex 0 value) (x :: t) = prepend c (read .none t)

/-- A character is read as what `escapeChar` wrote, in any of the three ways. -/
theorem ReadsEscapes.escapeChar {read : Escape → List Char → Option (List Char × List Char)}
    (hread : ReadsEscapes read) (c : Char) (t : List Char) :
    read .none (escapeChar c ++ t) = prepend c (read .none t) := by
  rcases escapeChar_cases c with ⟨h, hquote, hslash, hcontrol⟩ | ⟨d, h, hd⟩ | ⟨h, hcontrol⟩
  · rw [h]
    exact hread.plain t hquote hslash hcontrol
  · rw [h, List.cons_append, hread.slash]
    exact hread.letter t hd
  · obtain ⟨x, y, z, w, i, j, hcode, hx, hy, hz, hw, hvalue⟩ := exists_hexCode hcontrol
    rw [h, hcode, List.cons_append, hread.slash, List.cons_append, hread.code _ rfl rfl]
    show read (.hex 3 0) (x :: y :: z :: w :: t) = _
    rw [hread.digit _ hx, hread.digit _ hy, hread.digit _ hz, hread.lastDigit _ hw hvalue]

/-! ### Strings on one line -/

theorem readsEscapes_readBasic? : ReadsEscapes readBasic? where
  plain t hquote hslash hcontrol := by
    rw [readBasic?, if_neg hquote, if_neg hslash, if_neg (Bool.eq_false_iff.mp hcontrol)]
  slash t := by rw [readBasic?, if_neg (by decide), if_pos rfl]
  letter t hd := by simp only [readBasic?, hd]
  code t hd hn := by simp only [readBasic?, hd, hn]
  digit t hx := by simp only [readBasic?, hx]
  lastDigit t hx hc := by simp only [readBasic?, hx, hc]

theorem readBasic?_escaped (cs rest : List Char) :
    readBasic? .none (cs.flatMap escapeChar ++ '"' :: rest) = some (cs, rest) := by
  induction cs with
  | nil => rfl
  | cons c cs ih =>
    rw [List.flatMap_cons, List.append_assoc, readsEscapes_readBasic?.escapeChar, ih]
    rfl

theorem readLiteral?_append {cs : List Char} (hquote : '\'' ∉ cs)
    (hcontrol : ∀ c ∈ cs, isControl c = false) (rest : List Char) :
    readLiteral? (cs ++ '\'' :: rest) = some (cs, rest) := by
  induction cs with
  | nil => rfl
  | cons c cs ih =>
    rw [List.mem_cons, not_or] at hquote
    rw [List.forall_mem_cons] at hcontrol
    rw [List.cons_append, readLiteral?, if_neg (Ne.symm hquote.1),
      if_neg (Bool.eq_false_iff.mp hcontrol.1), ih hquote.2 hcontrol.2]
    rfl

/-! ### Strings of several lines -/

theorem replicate_append_cons (n : Nat) (q : Char) (t : List Char) :
    List.replicate n q ++ q :: t = q :: (List.replicate n q ++ t) := by
  induction n with
  | zero => rfl
  | succ n ih => rw [List.replicate_succ, List.cons_append, ih, List.cons_append]

theorem closing_replicate {q : Char} {n : Nat} (hn : n ≤ 2) {rest : List Char}
    (hrest : rest.head? ≠ some q) :
    closing q (List.replicate n q ++ rest) = (List.replicate n q, rest) := by
  have hhead : ∀ c cs, rest = c :: cs → c ≠ q := by
    rintro c cs rfl rfl
    exact hrest rfl
  match n, hn with
  | 0, _ =>
    match rest, hhead with
    | [], _ => rfl
    | [c], hhead => exact if_neg (hhead c [] rfl)
    | c :: d :: cs, hhead => exact if_neg (hhead c (d :: cs) rfl)
  | 1, _ =>
    match rest, hhead with
    | [], _ => exact if_pos rfl
    | d :: cs, hhead => exact (if_pos rfl).trans (if_neg (hhead d cs rfl))
  | 2, _ => exact (if_pos rfl).trans (if_pos rfl)

/-- A reader that looks three characters ahead takes up to two quotes for what they are. -/
theorem read_quotes {q : Char} {read : List Char → Option (List Char × List Char)}
    (hread : ∀ t, ¬[q, q] <+: t → read (q :: t) = prepend q (read t)) {n : Nat} (hn : n ≤ 2)
    {t : List Char} (ht : t.head? ≠ some q) {cs rest : List Char} (h : read t = some (cs, rest)) :
    read (List.replicate n q ++ t) = some (List.replicate n q ++ cs, rest) := by
  have hone : ¬[q, q] <+: t := by
    rintro ⟨u, rfl⟩
    exact ht rfl
  have htwo : ¬[q, q] <+: q :: t := by
    rw [List.cons_prefix_cons]
    rintro ⟨-, u, rfl⟩
    exact ht rfl
  match n, hn with
  | 0, _ => exact h
  | 1, _ =>
    show read (q :: t) = _
    rw [hread t hone, h]
    rfl
  | 2, _ =>
    show read (q :: q :: t) = _
    rw [hread (q :: t) htwo, hread t hone, h]
    rfl

theorem readLongBasic?_quote (t : List Char) (ht : ¬['"', '"'] <+: t) :
    readLongBasic? .none ('"' :: t) = prepend '"' (readLongBasic? .none t) := by
  rw [readLongBasic?]
  · rfl
  · rintro u - rfl
    exact ht ⟨u, rfl⟩
  · rintro u hc
    cases hc

theorem not_raw_control {c : Char} (h : isControl c = true → c = '\n') :
    ¬(isControl c && c != '\n') = true := by
  rw [Bool.and_eq_true, bne_iff_ne]
  exact fun hc => hc.2 (h hc.1)

theorem readLongBasic?_plain {c : Char} (hquote : c ≠ '"') (hslash : c ≠ '\\')
    (hcontrol : isControl c = true → c = '\n') (t : List Char) :
    readLongBasic? .none (c :: t) = prepend c (readLongBasic? .none t) := by
  rw [readLongBasic?, if_neg hslash, if_neg (not_raw_control hcontrol)]
  · exact fun _ hc => absurd hc hquote
  · rintro u rfl
    exact absurd (hcontrol rfl) (by decide)

theorem readsEscapes_readLongBasic? : ReadsEscapes readLongBasic? where
  plain t hquote hslash hcontrol :=
    readLongBasic?_plain hquote hslash (fun hc => absurd hc (Bool.eq_false_iff.mp hcontrol)) t
  slash t := by
    rw [readLongBasic?]
    · rfl
    · intro u hc
      cases hc
    · intro u hc
      cases hc
  letter t hd := by simp only [readLongBasic?, hd]
  code t hd hn := by simp only [readLongBasic?, hd, hn]
  digit t hx := by simp only [readLongBasic?, hx]
  lastDigit t hx hc := by simp only [readLongBasic?, hx, hc]

theorem head?_escapeChar_append (c : Char) (t : List Char) :
    (escapeChar c ++ t).head? ≠ some '"' := by
  rcases escapeChar_cases c with ⟨h, hquote, -, -⟩ | ⟨d, h, -⟩ | ⟨h, -⟩
  · rw [h]
    exact fun heq => hquote (Option.some.inj heq)
  · rw [h]
    exact fun heq => absurd (Option.some.inj heq) (by decide)
  · rw [h]
    exact fun heq => absurd (Option.some.inj heq) (by decide)

theorem escapeLong_cons {c : Char} (hfeed : c ≠ '\n') (hquote : c ≠ '"') (n : Nat)
    (cs : List Char) : escapeLong n (c :: cs) = escapeChar c ++ escapeLong 0 cs := by
  rw [escapeLong]
  · exact hfeed
  · exact hquote

/-- An escaped string of several lines is read by `readLongBasic?` as what was written, with the
quotes in front of it that are counted already. -/
theorem readLongBasic?_escapeLong {rest : List Char} (hrest : rest.head? ≠ some '"')
    (cs : List Char) : ∀ {n : Nat}, n ≤ 2 →
      readLongBasic? .none
          (List.replicate n '"' ++ (escapeLong n cs ++ '"' :: '"' :: '"' :: rest)) =
        some (List.replicate n '"' ++ cs, rest) := by
  -- on the string; quotes are gathered until something else comes
  induction cs with
  | nil =>
    intro n hn
    rw [escapeLong, List.nil_append, replicate_append_cons, replicate_append_cons,
      replicate_append_cons, readLongBasic?, closing_replicate hn hrest, List.append_nil]
  | cons c cs ih =>
    intro n hn
    by_cases hquote : c = '"'
    · subst hquote
      rw [escapeLong]
      by_cases hlt : n < 2
      · rw [if_pos hlt, List.cons_append, replicate_append_cons, replicate_append_cons]
        exact ih (Nat.succ_le_of_lt hlt)
      · rw [if_neg hlt]
        refine read_quotes readLongBasic?_quote hn (by simp) ?_
        refine (readsEscapes_readLongBasic?.escapeChar '"' _).trans ?_
        exact congrArg (prepend '"') (ih (Nat.zero_le 2))
    by_cases hfeed : c = '\n'
    · subst hfeed
      refine read_quotes readLongBasic?_quote hn (by simp [escapeLong]) ?_
      rw [escapeLong, List.cons_append, readLongBasic?_plain (by decide) (by decide) fun _ => rfl]
      exact congrArg (prepend '\n') (ih (Nat.zero_le 2))
    rw [escapeLong_cons hfeed hquote, List.append_assoc]
    refine read_quotes readLongBasic?_quote hn (head?_escapeChar_append c _) ?_
    rw [readsEscapes_readLongBasic?.escapeChar]
    exact congrArg (prepend c) (ih (Nat.zero_le 2))

theorem readLongLiteral?_quote (t : List Char) (ht : ¬['\'', '\''] <+: t) :
    readLongLiteral? ('\'' :: t) = prepend '\'' (readLongLiteral? t) := by
  rw [readLongLiteral?]
  · rfl
  · rintro u - rfl
    exact ht ⟨u, rfl⟩
  · rintro u hc
    cases hc

theorem readLongLiteral?_plain {c : Char} (hquote : c ≠ '\'')
    (hcontrol : isControl c = true → c = '\n') (t : List Char) :
    readLongLiteral? (c :: t) = prepend c (readLongLiteral? t) := by
  rw [readLongLiteral?, if_neg (not_raw_control hcontrol)]
  · exact fun _ hc => absurd hc hquote
  · rintro u rfl
    exact absurd (hcontrol rfl) (by decide)

/-- A string without escapes is read by `readLongLiteral?` as it is, when there are no three quotes
in a row. -/
theorem readLongLiteral?_append {rest : List Char} (hrest : rest.head? ≠ some '\'')
    (cs : List Char) : ∀ {n : Nat}, longestRun '\'' n cs ≤ 2 →
      (∀ c ∈ cs, isControl c = true → c = '\n') →
      readLongLiteral? (List.replicate n '\'' ++ (cs ++ '\'' :: '\'' :: '\'' :: rest)) =
        some (List.replicate n '\'' ++ cs, rest) := by
  -- as before, but here the length of the run says that two quotes are the most
  induction cs with
  | nil =>
    intro n hn _
    rw [longestRun] at hn
    rw [List.nil_append, replicate_append_cons, replicate_append_cons, replicate_append_cons,
      readLongLiteral?, closing_replicate hn hrest, List.append_nil]
  | cons c cs ih =>
    intro n hn hcontrol
    rw [List.forall_mem_cons] at hcontrol
    rw [longestRun] at hn
    by_cases hquote : c = '\''
    · rw [if_pos hquote] at hn
      rw [hquote, List.cons_append, replicate_append_cons, replicate_append_cons]
      exact ih hn hcontrol.2
    · rw [if_neg hquote, Nat.max_le] at hn
      rw [List.cons_append]
      refine read_quotes readLongLiteral?_quote hn.1 ?_ ?_
      · exact fun heq => hquote (Option.some.inj heq)
      · rw [readLongLiteral?_plain hquote hcontrol.1]
        exact congrArg (prepend c) (ih hn.2 hcontrol.2)

/-! ### Strings and keys -/

/-- What follows a string does not go on with quotes. -/
def Unquoted (t : List Char) : Prop :=
  t.head? ≠ some '"' ∧ t.head? ≠ some '\''

theorem unquoted_cons {c : Char} (hdouble : c ≠ '"') (hsingle : c ≠ '\'') (t : List Char) :
    Unquoted (c :: t) :=
  ⟨fun h => hdouble (Option.some.inj h), fun h => hsingle (Option.some.inj h)⟩

theorem le_longestRun (q : Char) (cs : List Char) : ∀ n, n ≤ longestRun q n cs := by
  induction cs with
  | nil => exact fun n => Nat.le_refl n
  | cons c cs ih =>
    intro n
    rw [longestRun]
    split
    · exact Nat.le_trans (Nat.le_succ n) (ih (n + 1))
    · exact Nat.le_max_left _ _

theorem not_mem_of_longestRun {q : Char} {cs : List Char} : ∀ {n : Nat},
    longestRun q n cs = 0 → q ∉ cs := by
  induction cs with
  | nil => exact fun _ => List.not_mem_nil
  | cons c cs ih =>
    intro n h
    rw [longestRun] at h
    by_cases hc : c = q
    · have hle := le_longestRun q cs (n + 1)
      rw [if_pos hc] at h
      omega
    · rw [if_neg hc] at h
      rw [List.mem_cons, not_or]
      exact ⟨Ne.symm hc, ih (n := 0) (by omega)⟩

/-- The two ways of `Style.of` without escapes are for texts that can be written so; the other two
are for any. -/
theorem Style.of_cases (cs : List Char) :
    Style.of cs = .basic ∨ Style.of cs = .longBasic ∨
      (Style.of cs = .literal ∧ '\'' ∉ cs ∧ ∀ c ∈ cs, isControl c = false) ∨
      (Style.of cs = .longLiteral ∧ longestRun '\'' 0 cs ≤ 2 ∧
        ∀ c ∈ cs, isControl c = true → c = '\n') := by
  have hcodes : (!cs.any fun c => isControl c && c != '\n') = true →
      ∀ c ∈ cs, isControl c = true → c = '\n' := by
    intro h
    simpa using h
  simp only [Style.of]
  split
  · exact .inl rfl
  split
  · next h =>
    simp only [Bool.and_eq_true, decide_eq_true_eq] at h
    obtain ⟨⟨hcontrol, hsingle⟩, hfeed⟩ := h
    have hfeed : '\n' ∉ cs := by simpa using hfeed
    refine .inr (.inr (.inl ⟨rfl, not_mem_of_longestRun hsingle, fun c hc => ?_⟩))
    rw [Bool.eq_false_iff]
    intro hcc
    exact hfeed (hcodes hcontrol c hc hcc ▸ hc)
  split
  · exact .inr (.inl rfl)
  split
  · next h =>
    simp only [Bool.and_eq_true, decide_eq_true_eq] at h
    exact .inr (.inr (.inr ⟨rfl, h.2, hcodes h.1⟩))
  split
  · exact .inr (.inl rfl)
  · exact .inl rfl

theorem readString?_basic {t : List Char} (ht : ¬['"', '"'] <+: t) :
    readString? ('"' :: t) = readBasic? .none t := by
  rw [readString?]
  rintro u rfl
  exact ht ⟨u, rfl⟩

theorem readString?_literal {t : List Char} (ht : ¬['\'', '\''] <+: t) :
    readString? ('\'' :: t) = readLiteral? t := by
  rw [readString?]
  rintro u rfl
  exact ht ⟨u, rfl⟩

/-- The line feed that `firstLine` puts in front of a text with lines is taken off again, and
nothing is taken off a text without. -/
theorem dropFirstLine_firstLine {cs t : List Char}
    (ht : ∀ c ∈ t.head?, isControl c = true → c = '\n' ∧ '\n' ∈ cs) :
    dropFirstLine (firstLine cs ++ t) = t := by
  by_cases hfeed : '\n' ∈ cs
  · rw [firstLine, if_pos (by simpa using hfeed)]
    rfl
  · rw [firstLine, if_neg (by simpa using hfeed), List.nil_append, dropFirstLine]
    · rintro u rfl
      exact hfeed (ht '\n' rfl rfl).2
    · rintro u rfl
      exact absurd (ht '\r' rfl rfl).1 (by decide)

theorem head?_escapeLong_append {cs t : List Char} {c : Char}
    (hc : c ∈ (escapeLong 0 cs ++ '"' :: t).head?) (hcontrol : isControl c = true) :
    c = '\n' ∧ '\n' ∈ cs := by
  have hquote : c ≠ '"' := by
    rintro rfl
    exact absurd hcontrol (by decide)
  cases cs with
  | nil => exact absurd (Option.some.inj hc).symm hquote
  | cons d cs =>
    by_cases hd : d = '"'
    · rw [hd] at hc
      exact absurd (Option.some.inj hc).symm hquote
    by_cases hfeed : d = '\n'
    · rw [hfeed] at hc ⊢
      exact ⟨(Option.some.inj hc).symm, List.mem_cons_self⟩
    rw [escapeLong_cons hfeed hd] at hc
    rcases escapeChar_cases d with ⟨h, -, -, hplain⟩ | ⟨e, h, -⟩ | ⟨h, -⟩
    · rw [h] at hc
      obtain rfl := Option.some.inj hc
      exact absurd hcontrol (Bool.eq_false_iff.mp hplain)
    · rw [h] at hc
      obtain rfl := Option.some.inj hc
      exact absurd hcontrol (by decide)
    · rw [h] at hc
      obtain rfl := Option.some.inj hc
      exact absurd hcontrol (by decide)

/-- **Every string is read as what was written**: `readString?` undoes `renderString`. -/
theorem readString?_renderString (cs : List Char) {rest : List Char} (hrest : Unquoted rest) :
    readString? (renderString cs ++ rest) = some (cs, rest) := by
  rw [renderString]
  rcases Style.of_cases cs with
    hstyle | hstyle | ⟨hstyle, hquote, hcontrol⟩ | ⟨hstyle, hrun, hcontrol⟩
  · rw [hstyle]
    show readString? ('"' :: (cs.flatMap escapeChar ++ ['"']) ++ rest) = _
    rw [List.cons_append, List.append_assoc, List.singleton_append, readString?_basic]
    · exact readBasic?_escaped cs rest
    · rintro ⟨u, hu⟩
      -- an empty string would be three quotes with the next one
      cases cs with
      | nil =>
        have hnext : rest = '"' :: u := (List.cons.inj hu).2.symm
        exact hrest.1 (by rw [hnext]; rfl)
      | cons c cs =>
        rw [List.flatMap_cons, List.append_assoc] at hu
        exact head?_escapeChar_append c _ (by rw [← hu]; rfl)
  · rw [hstyle]
    show readString? (['"', '"', '"'] ++ firstLine cs ++ escapeLong 0 cs ++ ['"', '"', '"'] ++
      rest) = _
    simp only [List.append_assoc, List.cons_append, List.nil_append]
    rw [readString?, dropFirstLine_firstLine fun c => head?_escapeLong_append]
    exact readLongBasic?_escapeLong hrest.1 cs (Nat.zero_le 2)
  · rw [hstyle]
    show readString? ('\'' :: (cs ++ ['\'']) ++ rest) = _
    rw [List.cons_append, List.append_assoc, List.singleton_append, readString?_literal]
    · exact readLiteral?_append hquote hcontrol rest
    · rintro ⟨u, hu⟩
      cases cs with
      | nil =>
        have hnext : rest = '\'' :: u := (List.cons.inj hu).2.symm
        exact hrest.2 (by rw [hnext]; rfl)
      | cons c cs => exact hquote ((List.cons.inj hu).1 ▸ List.mem_cons_self)
  · rw [hstyle]
    show readString? (['\'', '\'', '\''] ++ firstLine cs ++ cs ++ ['\'', '\'', '\''] ++ rest) = _
    simp only [List.append_assoc, List.cons_append, List.nil_append]
    rw [readString?, dropFirstLine_firstLine]
    · exact readLongLiteral?_append hrest.2 cs (n := 0) hrun hcontrol
    · intro c hc hcc
      cases cs with
      | nil =>
        obtain rfl := Option.some.inj hc
        exact absurd hcc (by decide)
      | cons d cs =>
        obtain rfl := Option.some.inj hc
        have hfeed := hcontrol d List.mem_cons_self hcc
        exact ⟨hfeed, hfeed ▸ List.mem_cons_self⟩

theorem exists_renderString (cs : List Char) :
    ∃ q t, renderString cs = q :: t ∧ (q = '"' ∨ q = '\'') := by
  rw [renderString]
  cases Style.of cs with
  | basic => exact ⟨'"', _, rfl, .inl rfl⟩
  | literal => exact ⟨'\'', _, rfl, .inr rfl⟩
  | longBasic => exact ⟨'"', _, rfl, .inl rfl⟩
  | longLiteral => exact ⟨'\'', _, rfl, .inr rfl⟩

/-- A key is written by `renderKey` as it is, or in double quotes, or in single quotes. -/
theorem renderKey_cases (cs : List Char) :
    (renderKey cs = cs ∧ cs ≠ [] ∧ ∀ c ∈ cs, isBare c = true) ∨
      renderKey cs = '"' :: (cs.flatMap escapeChar ++ ['"']) ∨
      (renderKey cs = '\'' :: (cs ++ ['\'']) ∧ '\'' ∉ cs ∧ ∀ c ∈ cs, isControl c = false) := by
  simp only [renderKey]
  split
  · next h => exact .inl ⟨rfl, by simpa using h⟩
  split
  · exact .inr (.inl rfl)
  split
  · next h =>
    have h : (∀ c ∈ cs, isControl c = false) ∧ '\'' ∉ cs := by simpa using h
    exact .inr (.inr ⟨rfl, h.2, h.1⟩)
  · exact .inr (.inl rfl)

theorem exists_renderKey (cs : List Char) :
    ∃ c t, renderKey cs = c :: t ∧ (isBare c = true ∨ c = '"' ∨ c = '\'') := by
  rcases renderKey_cases cs with ⟨h, hne, hbare⟩ | h | ⟨h, -⟩
  · obtain ⟨c, t, rfl⟩ := List.exists_cons_of_ne_nil hne
    exact ⟨c, t, h, .inl (hbare c List.mem_cons_self)⟩
  · exact ⟨'"', _, h, .inr (.inl rfl)⟩
  · exact ⟨'\'', _, h, .inr (.inr rfl)⟩

/-- **Every key is read as what was written**: `readSimpleKey?` undoes `renderKey`. -/
theorem readSimpleKey?_renderKey (cs : List Char) {rest : List Char}
    (hrest : ∀ c ∈ rest.head?, isBare c = false) :
    readSimpleKey? (renderKey cs ++ rest) = some (cs, rest) := by
  rcases renderKey_cases cs with ⟨h, hne, hbare⟩ | h | ⟨h, hquote, hcontrol⟩
  · have htake : (cs ++ rest).takeWhile isBare = cs := by
      rw [List.takeWhile_append_of_pos hbare]
      cases rest with
      | nil => exact List.append_nil cs
      | cons c rest =>
        rw [List.takeWhile_cons_of_neg (Bool.eq_false_iff.mp (hrest c rfl)), List.append_nil]
    obtain ⟨c, t, rfl⟩ := List.exists_cons_of_ne_nil hne
    have hc := hbare c List.mem_cons_self
    rw [h, readSimpleKey?]
    · simp only [htake, List.isEmpty_cons, Bool.false_eq_true, if_false, List.drop_left]
    · rintro u hu
      rw [(List.cons.inj hu).1] at hc
      exact absurd hc (by decide)
    · rintro u hu
      rw [(List.cons.inj hu).1] at hc
      exact absurd hc (by decide)
  · rw [h, List.cons_append, List.append_assoc, List.singleton_append]
    exact readBasic?_escaped cs rest
  · rw [h, List.cons_append, List.append_assoc, List.singleton_append]
    exact readLiteral?_append hquote hcontrol rest

end SexpEdit.Toml
