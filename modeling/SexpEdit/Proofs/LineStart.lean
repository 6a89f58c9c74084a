/-
A scan starts afresh on a new line.

A scan looks ahead: what comes after a text can change the last token of it.  But no rule looks past
a line feed, except inside a string, so what follows a line feed that stands in no string does not
bear on the tokens before it.

* `first_append` — behind a line feed a text may go on in any way, and the first token stays;
* `fresh_of_endsLine` — where a line starts outside of strings, the tokens before it and the tokens
  from there on are scanned apart;
* `spots_scan_blanks` — blanks at the start of a line are no part of any other token.
-/
import SexpEdit.Proofs.Spelling

namespace SexpEdit

open Text

namespace Text

/-- A line starts after the text: it is empty, or a line feed is its last character. -/
def EndsLine (cs : List Char) : Prop :=
  cs = [] ∨ ∃ ds, cs = ds ++ ['\n']

theorem EndsLine.mem {c : Char} {cs : List Char} (h : EndsLine (c :: cs)) : '\n' ∈ c :: cs := by
  obtain h | ⟨ds, h⟩ := h
  · cases h
  · simp [h]

/-- What is left after a first part of a text that `EndsLine` does so too. -/
theorem EndsLine.of_append {cs ds : List Char} (h : EndsLine (cs ++ ds)) : EndsLine ds := by
  rcases List.eq_nil_or_concat' ds with rfl | ⟨es, d, rfl⟩
  · exact .inl rfl
  · obtain h | ⟨fs, h⟩ := h
    · simp at h
    · rw [← List.append_assoc] at h
      obtain ⟨-, hd⟩ := List.append_inj' h rfl
      exact .inr ⟨es, by rw [hd]⟩

/-! ### Rules do not look past a line feed -/

theorem takeWhile_append_of_mem {p : Char → Bool} {c : Char} (hc : p c = false) {cs : List Char}
    (h : c ∈ cs) (ds : List Char) : (cs ++ ds).takeWhile p = cs.takeWhile p := by
  rw [List.takeWhile_append, if_neg]
  intro hlen
  rw [← (List.takeWhile_prefix p).eq_of_length hlen] at h
  rw [of_mem_takeWhile h] at hc
  cases hc

theorem mem_tail_of_ne {c : Char} {cs : List Char} (h : '\n' ∈ c :: cs) (hc : c ≠ '\n') :
    '\n' ∈ cs := by
  rcases List.mem_cons.mp h with h | h
  · exact absurd h.symm hc
  · exact h

theorem newlineLength_append {cs : List Char} (h : '\n' ∈ cs) (ds : List Char) :
    newlineLength (cs ++ ds) = newlineLength cs := by
  match cs, h with
  | [c], h =>
    obtain rfl := List.mem_singleton.mp h
    rfl
  | c :: d :: cs, _ =>
    unfold newlineLength
    simp only [List.cons_append]
    split <;> simp_all

theorem commentLength_append {cs : List Char} (h : '\n' ∈ cs) (ds : List Char) :
    commentLength (cs ++ ds) = commentLength cs := by
  cases cs with
  | nil => cases h
  | cons c cs =>
    by_cases hc : c = ';'
    · subst hc
      have hmem := mem_tail_of_ne h (by decide)
      simp only [commentLength, List.cons_append]
      rw [takeWhile_append_of_mem (by decide) hmem]
    · simp [commentLength, hc]

theorem charLength_append {cs : List Char} (h : '\n' ∈ cs) (ds : List Char) :
    charLength (cs ++ ds) = charLength cs := by
  match cs, h with
  | [c], h =>
    obtain rfl := List.mem_singleton.mp h
    simp [charLength]
  | c :: d :: cs, h =>
    by_cases hc : c = '\\'
    · subst hc
      by_cases hd : d = '\n'
      · simp [charLength, hd]
      · -- the letters after the literal end at the line feed at the latest
        have hmem := mem_tail_of_ne (mem_tail_of_ne h (by decide)) hd
        simp only [charLength, List.cons_append]
        rw [takeWhile_append_of_mem (by decide) hmem]
    · simp [charLength, hc]

/-- A prefix is told from three characters. -/
theorem prefixLength_three (c d e : Char) (cs : List Char) :
    prefixLength (c :: d :: e :: cs) = prefixLength [c, d, e] := by
  by_cases hhash : c = '#'
  · subst hhash
    by_cases hquery : d = '?'
    · subst hquery
      by_cases hat : e = '@'
      · subst hat
        rfl
      · simp [prefixLength, hat]
    · simp [prefixLength, hquery]
  · by_cases htilde : c = '~'
    · subst htilde
      by_cases hat : d = '@'
      · subst hat
        rfl
      · simp [prefixLength, hat]
    · simp [prefixLength, hhash, htilde]

theorem prefixLength_append {cs : List Char} (h : '\n' ∈ cs) (ds : List Char) :
    prefixLength (cs ++ ds) = prefixLength cs := by
  match cs, h with
  | [c], h =>
    obtain rfl := List.mem_singleton.mp h
    simp [prefixLength]
  | [c, d], h =>
    simp only [List.mem_cons, List.not_mem_nil, or_false] at h
    rcases h with rfl | rfl
    · simp [prefixLength]
    · by_cases hc : c = '#'
      · simp [prefixLength, hc]
      · simp [prefixLength, hc]
  | c :: d :: e :: cs, _ =>
    have h := prefixLength_three c d e (cs ++ ds)
    rw [← prefixLength_three c d e cs] at h
    exact h

theorem symbolLength_append {cs : List Char} (h : '\n' ∈ cs) (ds : List Char) :
    symbolLength (cs ++ ds) = symbolLength cs := by
  cases cs with
  | nil => cases h
  | cons c cs =>
    by_cases hc : startsSymbol c
    · have hmem : '\n' ∈ cs := mem_tail_of_ne h (by rintro rfl; revert hc; decide)
      simp only [symbolLength, List.cons_append, if_pos hc]
      rw [takeWhile_append_of_mem (by decide) hmem]
    · simp [symbolLength, hc]

theorem singleLength_append (d : Char) {cs : List Char} (h : cs ≠ []) (ds : List Char) :
    singleLength d (cs ++ ds) = singleLength d cs := by
  cases cs with
  | nil => exact absurd rfl h
  | cons c cs => rfl

end Text

/-- Only in a string does the `matchLength` of a rule look past a line feed. -/
theorem Kind.matchLength_append {c : Char} {cs : List Char} (h : '\n' ∈ c :: cs) (hc : c ≠ '"')
    (ds : List Char) (k : Kind) : k.matchLength (c :: cs ++ ds) = k.matchLength (c :: cs) := by
  cases k with
  | whitespace =>
    have htake := takeWhile_append_of_mem (p := isSpacing) (by decide) h ds
    simp only [matchLength, htake]
  | newline => exact newlineLength_append h ds
  | comment => exact commentLength_append h ds
  | string => simp [matchLength, stringLength, hc]
  | unterminatedString => simp [matchLength, openStringLength, hc]
  | char => exact charLength_append h ds
  | readerPrefix => exact prefixLength_append h ds
  | symbol => exact symbolLength_append h ds
  | lparen | rparen | lbracket | rbracket | lbrace | rbrace =>
    exact singleLength_append _ (List.cons_ne_nil c cs) ds
  | _ => rfl

theorem Kind.longest_congr {cs ds : List Char} (h : ∀ k, matchLength k cs = matchLength k ds) :
    ∀ (kinds : List Kind) (best : Kind × Nat), longest cs best kinds = longest ds best kinds := by
  intro kinds
  induction kinds with
  | nil =>
    intro best
    rfl
  | cons k kinds ih =>
    intro best
    rw [longest, longest, h k, ih]

namespace Token

/-- Behind a line feed a text may go on in any way: the `first` token stays, unless it is a
string. -/
theorem first_append {c : Char} {cs : List Char} (h : '\n' ∈ c :: cs) (hc : c ≠ '"')
    (ds : List Char) : first c (cs ++ ds) = first c cs := by
  have hlongest := Kind.longest_congr (Kind.matchLength_append h hc ds) Kind.scanned (.symbol, 0)
  have hle : (Kind.longest (c :: cs) (.symbol, 0) Kind.scanned).2 ≤ (c :: cs).length := by
    rcases Kind.longest_eq (c :: cs) Kind.scanned (.symbol, 0) with h | ⟨k, -, h, -⟩
    · rw [h]
      exact Nat.zero_le _
    · rw [h]
      exact Kind.matchLength_le k _
  rw [List.cons_append] at hlongest
  unfold first
  rw [hlongest]
  split
  · rfl
  · next k n _ heq =>
    rw [heq] at hle
    rw [← List.cons_append, List.take_append_of_le_length hle]

end Token

namespace Text

/-- The longest body goes on behind a `Body`. -/
theorem bodyLength_append {body : List Char} (h : Body body) (rest : List Char) :
    bodyLength (body ++ rest) = body.length + bodyLength rest := by
  induction h with
  | nil => simp
  | @plain c cs hquote hback _ ih =>
    rw [List.cons_append]
    nth_rewrite 1 [bodyLength.eq_def]
    split
    · next heq => cases heq
    · next heq =>
      obtain ⟨rfl, -⟩ := List.cons.inj heq
      exact absurd rfl hback
    · next heq =>
      obtain ⟨rfl, rfl⟩ := List.cons.inj heq
      have hplain : ¬(c == '"' || c == '\\') := by simp [hquote, hback]
      rw [if_neg hplain, ih, List.length_cons]
      omega
  | @escape c cs _ ih =>
    rw [List.cons_append, List.cons_append, bodyLength, ih, List.length_cons, List.length_cons]
    omega

theorem bodyLength_append_quote {body : List Char} (h : Body body) (rest : List Char) :
    bodyLength (body ++ '"' :: rest) = body.length := by
  rw [bodyLength_append h]
  simp [bodyLength]

end Text

namespace Token

/-- A quote, a `Body` and a quote are a string, whatever follows. -/
theorem first_string {body : List Char} (h : Body body) (rest : List Char) :
    first '"' (body ++ '"' :: rest) = ⟨.string, '"' :: (body ++ ['"'])⟩ := by
  have hbody := bodyLength_append_quote h rest
  have hstring : Kind.string.matchLength ('"' :: (body ++ '"' :: rest)) = body.length + 2 := by
    simp [Kind.matchLength, stringLength, hbody]
  rcases first_eq '"' (body ++ '"' :: rest) with ⟨-, hnone⟩ | ⟨k, hk, -, hmax, heq⟩
  · have hzero := hnone .string (by decide)
    rw [hstring] at hzero
    cases hzero
  · have hle := hmax .string (by decide)
    rw [hstring] at hle
    -- every other rule matches less of a text that starts with a quote
    obtain rfl : k = .string := by
      revert hle
      cases k <;>
        simp [Kind.matchLength, isSpacing, newlineLength, commentLength, singleLength,
          openStringLength, charLength, prefixLength, symbolLength, startsSymbol, endsSymbol, hbody]
    have htake : (body ++ '"' :: rest).take (body.length + 1) = body ++ ['"'] := by
      rw [List.take_append, List.take_of_length_le (by omega)]
      simp
    rw [heq, hstring, List.take_succ_cons, htake]

/-! ### Where a line starts -/

/-- The tokens of `cs` and the tokens of what follows it are scanned apart. -/
def Fresh (cs : List Char) : Prop :=
  ∀ rest, scan (cs ++ rest) = scan cs ++ scan rest

theorem fresh_nil : Fresh [] :=
  fun _ => rfl

/-- A line feed inside a token, with something after it, stands in a token that `isString`. -/
theorem Spelled.isString_of_append {k : Kind} {cs ds : List Char} (h : Spelled k (cs ++ ds))
    (hcs : EndsLine cs) (hne : cs ≠ []) (hds : ds ≠ []) : k.isString := by
  obtain rfl | ⟨es, rfl⟩ := hcs
  · exact absurd rfl hne
  have hmem : '\n' ∈ es ++ ['\n'] ++ ds := by simp
  have hlen : 2 ≤ (es ++ ['\n'] ++ ds).length := by
    have hpos := List.length_pos_iff.mpr hds
    simp only [List.length_append, List.length_singleton]
    omega
  generalize htext : es ++ ['\n'] ++ ds = text at h hmem hlen
  cases h with
  | whitespace hall => exact absurd (hall '\n' hmem) (by decide)
  | blank | newline | delimiter | backslash => simp at hlen
  | returnNewline =>
    -- there the line feed comes last
    have hlen := congrArg List.length htext
    simp only [List.length_append, List.length_cons, List.length_nil] at hlen
    have hpos := List.length_pos_iff.mpr hds
    obtain rfl : es = [] := List.length_eq_zero_iff.mp (by omega)
    simp at htext
  | comment hall =>
    rcases List.mem_cons.mp hmem with h | h
    · cases h
    · exact absurd rfl (hall '\n' h).2
  | string | unterminatedString => rfl
  | char hc hall =>
    rcases List.mem_cons.mp hmem with h | h
    · cases h
    · rcases List.mem_cons.mp h with h | h
      · exact absurd h.symm hc
      · exact absurd (hall '\n' h) (by decide)
  | readerPrefix hcs =>
    have hall : prefixes.all fun cs => !cs.contains '\n' := by decide
    have := List.all_eq_true.mp hall _ hcs
    simp_all
  | symbol hc hall =>
    rcases List.mem_cons.mp hmem with rfl | h
    · revert hc
      decide
    · exact absurd (hall '\n' h) (by decide)

/-- The number of characters of a row of tokens. -/
def widthOf (ts : List Token) : Nat :=
  (ts.flatMap text).length

@[simp] theorem widthOf_nil : widthOf [] = 0 :=
  rfl

@[simp] theorem widthOf_cons (t : Token) (ts : List Token) :
    widthOf (t :: ts) = t.text.length + widthOf ts := by
  rw [widthOf, List.flatMap_cons, List.length_append, widthOf]

@[simp] theorem widthOf_append (ts us : List Token) :
    widthOf (ts ++ us) = widthOf ts + widthOf us := by
  rw [widthOf, List.flatMap_append, List.length_append, widthOf, widthOf]

/-- The tokens that `scan` finds in a text have its characters. -/
theorem widthOf_scan (cs : List Char) : widthOf (scan cs) = cs.length :=
  congrArg List.length (scan_text cs)

/-- The offset `n` is inside a string of the text: some of it is before the offset, some after. -/
def InString (cs : List Char) (n : Nat) : Prop :=
  ∃ ts t us, scan cs = ts ++ t :: us ∧ widthOf ts < n ∧ n < widthOf ts + t.text.length ∧
    t.kind.isString

theorem InString.cons {t : Token} {cs rest : List Char} {n : Nat} (hscan : scan cs = t :: scan rest)
    (h : InString rest n) : InString cs (t.text.length + n) := by
  obtain ⟨ts, u, us, hsplit, hlt, hgt, hk⟩ := h
  refine ⟨t :: ts, u, us, by rw [hscan, hsplit]; rfl, ?_, ?_, hk⟩
  · rw [widthOf_cons]
    omega
  · rw [widthOf_cons]
    omega

theorem scan_of_first {c : Char} {cs rest : List Char} {t : Token} (hfirst : first c cs = t)
    (hsplit : c :: cs = t.text ++ rest) : scan (c :: cs) = t :: scan rest := by
  rw [scan_cons, hfirst, hsplit, List.drop_left]

/-- A token that starts with a quote is a string. -/
theorem Spelled.body_of_quote {k : Kind} {cs : List Char} (h : Spelled k ('"' :: cs))
    (hk : k ≠ .unterminatedString) : k = .string ∧ ∃ body, Body body ∧ cs = body ++ ['"'] := by
  cases h with
  | whitespace hall => exact absurd (hall '"' (by simp)) (by decide)
  | blank hc => exact absurd hc (by decide)
  | delimiter hc => cases k <;> cases hc
  | string hbody => exact ⟨rfl, _, hbody, rfl⟩
  | unterminatedString => exact absurd rfl hk
  | readerPrefix hcs =>
    have hall : prefixes.all fun cs => cs.head? != some '"' := by decide
    have hhead := List.all_eq_true.mp hall _ hcs
    simp at hhead
  | symbol hc => exact absurd hc (by decide)

/-- The `first` token of a text stays, whatever follows behind the start of a line, when it ends
before that. -/
theorem first_eq_of_endsLine {c : Char} {as m rest : List Char} {t : Token}
    (hfirst : first c (as ++ rest) = t) (hsplit : c :: as = t.text ++ m)
    (hline : EndsLine (c :: as)) (hk : t.kind ≠ .unterminatedString) (new : List Char) :
    first c (as ++ new) = t := by
  by_cases hc : c = '"'
  · subst hc
    have hspelled := spelled_first '"' (as ++ rest)
    obtain ⟨ds, hds⟩ := exists_first_text_eq '"' (as ++ rest)
    rw [hfirst] at hspelled hds
    rw [hds] at hspelled hsplit
    obtain ⟨hkind, body, hbody, rfl⟩ := hspelled.body_of_quote hk
    obtain ⟨-, rfl⟩ := List.cons.inj hsplit
    have hstring := first_string hbody (m ++ new)
    have htoken : t = ⟨.string, '"' :: (body ++ ['"'])⟩ := by rw [← hkind, ← hds]
    rw [htoken, ← hstring]
    simp
  · rw [first_append hline.mem hc, ← hfirst, first_append hline.mem hc]

/-- **A scan starts afresh on a line.** Where a line starts outside of strings, the text before it
is `Fresh`: its tokens do not depend on what follows. -/
theorem fresh_of_endsLine {cs : List Char} (hterm : ∀ t ∈ scan cs, t.kind ≠ .unterminatedString) :
    ∀ {as rest : List Char}, cs = as ++ rest → EndsLine as → ¬InString cs as.length → Fresh as := by
  induction cs using scan_induction with
  | nil =>
    intro as rest hcs _ _
    obtain ⟨rfl, -⟩ := List.append_eq_nil_iff.mp hcs.symm
    exact fresh_nil
  | cons c cs tail hsplit hscan ih =>
    intro as rest hcs hline hout
    cases as with
    | nil => exact fresh_nil
    | cons a as =>
      rw [List.cons_append] at hcs
      obtain ⟨rfl, rfl⟩ := List.cons.inj hcs
      -- the first token ends before the line starts, since it is no string around that place
      have hsplit' : ∃ m, c :: as = (first c (as ++ rest)).text ++ m ∧ tail = m ++ rest := by
        rcases List.append_eq_append_iff.mp (hsplit.symm.trans (List.cons_append).symm) with
          ⟨m, hm, htail⟩ | ⟨m, hm, hrest⟩
        · exact ⟨m, hm, htail⟩
        · by_cases hnil : m = []
          · subst hnil
            exact ⟨[], by rw [hm]; simp, by rw [hrest]; rfl⟩
          · refine absurd ⟨[], _, _, hscan, by simp, ?_, ?_⟩ hout
            · rw [hm]
              have hpos := List.length_pos_iff.mpr hnil
              simp only [widthOf_nil, List.length_append]
              omega
            · have hspelled := spelled_first c (as ++ rest)
              rw [hm] at hspelled
              exact hspelled.isString_of_append hline (List.cons_ne_nil c as) hnil
      obtain ⟨m, hm, rfl⟩ := hsplit'
      have hkind := hterm (first c (as ++ rest)) (by rw [hscan]; simp)
      have hm' := hline
      rw [hm] at hm'
      have hfresh : Fresh m := by
        refine ih (fun t ht => hterm t (by rw [hscan]; simp [ht])) rfl hm'.of_append fun hin => ?_
        refine hout ?_
        rw [hm, List.length_append]
        exact hin.cons hscan
      intro new
      have hnew := first_eq_of_endsLine rfl hm hline hkind new
      have hself := first_eq_of_endsLine rfl hm hline hkind []
      rw [List.append_nil] at hself
      have hscan' : scan (c :: (as ++ new)) = _ :: scan (m ++ new) :=
        scan_of_first hnew (by rw [← List.cons_append, hm, List.append_assoc])
      rw [List.cons_append, hscan', hfresh new, scan_of_first hself hm]
      rfl

/-! ### Blanks at the start of a line -/

/-- Spacing is one token, up to the next character that is not `isSpacing`. -/
theorem scan_spacing {c : Char} {cs : List Char} (hc : isSpacing c) (hne : c ≠ '\r') :
    scan (c :: cs) = ⟨.whitespace, (c :: cs).takeWhile isSpacing⟩ ::
      scan ((c :: cs).dropWhile isSpacing) := by
  have hfirst : first c cs = ⟨.whitespace, (c :: cs).takeWhile isSpacing⟩ := by
    have hwhite : 0 < Kind.whitespace.matchLength (c :: cs) := by
      simp [Kind.matchLength, hc]
    have hother : ∀ k ∈ Kind.scanned, k ≠ .whitespace → k.matchLength (c :: cs) = 0 := by
      simp only [isSpacing, Bool.or_eq_true, beq_iff_eq] at hc
      obtain rfl | rfl | rfl : c = ' ' ∨ c = '\t' ∨ c = ',' := by simpa [hne, or_assoc] using hc
      all_goals
        intro k _ hk
        cases k <;> first
          | exact absurd rfl hk
          | simp [Kind.matchLength, newlineLength, commentLength, singleLength, stringLength,
              openStringLength, charLength, prefixLength, symbolLength, startsSymbol, endsSymbol,
              isBlank, blankRanges]
    rcases first_eq c cs with ⟨-, hnone⟩ | ⟨k, hk, hpos, -, heq⟩
    · rw [hnone .whitespace (by decide)] at hwhite
      cases hwhite
    · obtain rfl : k = .whitespace := by
        refine Decidable.byContradiction fun hne => ?_
        rw [hother k hk hne] at hpos
        cases hpos
      rw [heq, Kind.matchLength, take_length_takeWhile]
  refine scan_of_first hfirst ?_
  exact List.takeWhile_append_dropWhile.symm

/-- The tokens but those of whitespace. -/
def significant (ts : List Token) : List Token :=
  ts.filter fun t => t.kind != .whitespace

@[simp] theorem significant_append (ts us : List Token) :
    significant (ts ++ us) = significant ts ++ significant us :=
  List.filter_append ts us

/-- The `significant` tokens of a row that starts at `offset`, each with the offset of its own. -/
def spots (offset : Nat) : List Token → List (Token × Nat)
  | [] => []
  | t :: ts =>
    if t.kind = .whitespace then spots (offset + t.text.length) ts
    else (t, offset) :: spots (offset + t.text.length) ts

theorem spots_append (ts us : List Token) (offset : Nat) :
    spots offset (ts ++ us) = spots offset ts ++ spots (offset + widthOf ts) us := by
  induction ts generalizing offset with
  | nil => rfl
  | cons t ts ih =>
    rw [List.cons_append, spots, spots, ih, widthOf_cons, ← Nat.add_assoc]
    by_cases ht : t.kind = .whitespace
    · rw [if_pos ht, if_pos ht]
    · rw [if_neg ht, if_neg ht, List.cons_append]

theorem map_fst_spots (ts : List Token) (offset : Nat) :
    (spots offset ts).map Prod.fst = significant ts := by
  induction ts generalizing offset with
  | nil => rfl
  | cons t ts ih =>
    rw [spots, significant, List.filter_cons]
    by_cases ht : t.kind = .whitespace
    · rw [if_pos ht, ih, if_neg (by simp [ht])]
      rfl
    · rw [if_neg ht, List.map_cons, ih, if_pos (by simp [ht])]
      rfl

/-- Blanks before a text are no part of its other tokens, the `spots`, unless a line end follows
them. -/
theorem spots_scan_blanks {bs cs : List Char} (hbs : ∀ b ∈ bs, b = ' ' ∨ b = '\t')
    (hcs : ∀ c ∈ cs.head?, c ≠ '\r') (offset : Nat) :
    spots offset (scan (bs ++ cs)) = spots (offset + bs.length) (scan cs) := by
  cases bs with
  | nil => rfl
  | cons b bs =>
    have hall : ∀ d ∈ b :: bs, isSpacing d := by
      intro d hd
      rcases hbs d hd with rfl | rfl <;> rfl
    have hb : b ≠ '\r' := by
      rcases hbs b (by simp) with rfl | rfl <;> decide
    rw [List.cons_append, scan_spacing (hall b (by simp)) hb, spots, if_pos rfl,
      ← List.cons_append, List.takeWhile_append_of_pos hall, List.dropWhile_append_of_pos hall,
      List.length_append, ← Nat.add_assoc]
    cases cs with
    | nil => rfl
    | cons c cs =>
      by_cases hc : isSpacing c
      · rw [scan_spacing hc (hcs c rfl), spots, if_pos rfl]
      · rw [List.takeWhile_cons_of_neg hc, List.dropWhile_cons_of_neg hc]
        rfl

/-- The `spots` before a line and those behind the blanks that it starts with. -/
theorem spots_scan_line {as bs : List Char} (has : Fresh as) (hbs : ∀ b ∈ bs, b = ' ' ∨ b = '\t')
    {c : Char} (hc : c ≠ '\r') (rest : List Char) :
    spots 0 (scan (as ++ (bs ++ c :: rest))) =
      spots 0 (scan as) ++ spots (as.length + bs.length) (scan (c :: rest)) := by
  have hhead : ∀ d ∈ (c :: rest).head?, d ≠ '\r' := by
    rintro d ⟨⟩
    exact hc
  rw [has, spots_append, widthOf_scan, spots_scan_blanks hbs hhead, Nat.zero_add]

end Token

end SexpEdit
