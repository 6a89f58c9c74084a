/-
How tokens are spelled.

`Token.Spelled k cs` says what the text of a token of kind `k` looks like, one rule for each way to
write it.  It is the declarative side of the lengths in `Kind.matchLength`.

* `spelled_of_mem_scan` — every token of a scan is spelled as its kind asks;
* `unterminated_follow` — a string lacks its quote only at the end of the text;
* `isChain_scan` — a comment is followed by the end of its line.
-/
import Mathlib.Data.List.Chain
import SexpEdit.Proofs.Scan

namespace SexpEdit

/-- The character of a delimiter. -/
def Kind.glyph? : Kind → Option Char
  | lparen => some '('
  | rparen => some ')'
  | lbracket => some '['
  | rbracket => some ']'
  | lbrace => some '\x7b'
  | rbrace => some '\x7d'
  | _ => none

namespace Text

/-- What stands between the quotes of a string: plain characters, and backslashes with the character
that each of them quotes. -/
inductive Body : List Char → Prop
  | nil : Body []
  | plain {c : Char} {cs : List Char} : c ≠ '"' → c ≠ '\\' → Body cs → Body (c :: cs)
  | escape {c : Char} {cs : List Char} : Body cs → Body ('\\' :: c :: cs)

/-- The reader prefixes. -/
def prefixes : List (List Char) :=
  [['~', '@'], ['#', '?', '@'], ['#', '_'], ['#', '\''], ['#', '?'], ['#'], ['\''], ['\x60'], ['~'],
    ['@'], ['^']]

theorem body_take (cs : List Char) : Body (cs.take (bodyLength cs)) := by
  fun_induction bodyLength cs with
  | case1 => exact .nil
  | case2 c cs ih => exact .escape ih
  | case3 c cs hne hstop => exact .nil
  | case4 c cs hne hstop ih =>
    simp only [Bool.or_eq_true, beq_iff_eq, not_or] at hstop
    exact .plain hstop.1 hstop.2 ih

/-- A body of the `bodyLength` ends before a quote, at the end of the text, or before a last
backslash. -/
theorem drop_bodyLength (cs : List Char) :
    cs.drop (bodyLength cs) = [] ∨ (∃ rest, cs.drop (bodyLength cs) = '"' :: rest) ∨
      cs.drop (bodyLength cs) = ['\\'] := by
  fun_induction bodyLength cs with
  | case1 => exact .inl rfl
  | case2 c cs ih => exact ih
  | case3 c cs hne hstop =>
    simp only [Bool.or_eq_true, beq_iff_eq] at hstop
    rcases hstop with rfl | rfl
    · exact .inr (.inl ⟨cs, rfl⟩)
    · -- with a character after it the backslash would belong to the body
      cases cs with
      | nil => exact .inr (.inr rfl)
      | cons d cs => exact absurd rfl (hne d cs rfl)
  | case4 c cs hne hstop ih => exact ih

theorem take_prefixLength {cs : List Char} (h : 0 < prefixLength cs) :
    cs.take (prefixLength cs) ∈ prefixes := by
  revert h
  fun_cases prefixLength cs <;> simp_all [prefixes] <;> grind

/-- Nothing, or the end of a line first. -/
def StartsLineEnd : List Char → Prop
  | [] => True
  | c :: _ => c = '\r' ∨ c = '\n'

instance (cs : List Char) : Decidable (StartsLineEnd cs) :=
  match cs with
  | [] => inferInstanceAs (Decidable True)
  | c :: _ => inferInstanceAs (Decidable (c = '\r' ∨ c = '\n'))

theorem take_length_takeWhile (p : Char → Bool) (cs : List Char) :
    cs.take (cs.takeWhile p).length = cs.takeWhile p :=
  (List.prefix_iff_eq_take.mp (List.takeWhile_prefix p)).symm

/-- What a comment of the `commentLength` leaves starts with a line end. -/
theorem startsLineEnd_drop {cs : List Char} (h : 0 < commentLength cs) :
    StartsLineEnd (cs.drop (commentLength cs)) := by
  revert h
  fun_cases commentLength cs with
  | case1 cs =>
    intro _
    let p (c : Char) : Bool := c != '\r' && c != '\n'
    have hdrop : cs.drop (cs.takeWhile p).length = cs.dropWhile p := by
      have h := congrArg (List.drop (cs.takeWhile p).length)
        (cs.takeWhile_append_dropWhile (p := p))
      rw [List.drop_left] at h
      exact h.symm
    rw [List.drop_succ_cons]
    show StartsLineEnd (cs.drop (cs.takeWhile p).length)
    rw [hdrop]
    have hhead := List.head?_dropWhile_not p cs
    cases hrest : cs.dropWhile p with
    | nil => trivial
    | cons d rest =>
      rw [hrest] at hhead
      have hd : d = '\r' ∨ d = '\n' := by
        simpa [p, Decidable.or_iff_not_imp_left] using hhead
      exact hd
  | case2 => simp

/-- What a string leaves when it lacks its quote. -/
theorem drop_openString {cs : List Char} (h : 0 < openStringLength cs)
    (hmax : stringLength cs ≤ openStringLength cs) :
    cs.drop (openStringLength cs) = [] ∨ cs.drop (openStringLength cs) = ['\\'] := by
  revert h hmax
  fun_cases openStringLength cs with
  | case1 cs =>
    intro _ hmax
    rw [List.drop_succ_cons]
    rcases drop_bodyLength cs with h | ⟨rest, h⟩ | h
    · exact .inl h
    · -- the quote that comes next would make a longer match
      have hquote : cs[bodyLength cs]? = some '"' := by
        rw [← List.head?_drop, h]
        rfl
      simp [stringLength, hquote] at hmax
    · exact .inr h
  | case2 => simp

theorem of_mem_takeWhile {p : Char → Bool} {cs : List Char} {c : Char} (h : c ∈ cs.takeWhile p) :
    p c = true :=
  List.all_eq_true.mp List.all_takeWhile c h

end Text

open Text

namespace Token

/-- The texts of tokens, kind by kind. -/
inductive Spelled : Kind → List Char → Prop
  | whitespace {cs : List Char} : (∀ c ∈ cs, isSpacing c) → Spelled .whitespace cs
  | blank {c : Char} : isBlank c → Spelled .whitespace [c]
  | newline : Spelled .newline ['\n']
  | returnNewline : Spelled .newline ['\r', '\n']
  | comment {cs : List Char} : (∀ c ∈ cs, c ≠ '\r' ∧ c ≠ '\n') → Spelled .comment (';' :: cs)
  | delimiter {k : Kind} {c : Char} : k.glyph? = some c → Spelled k [c]
  | string {cs : List Char} : Body cs → Spelled .string ('"' :: (cs ++ ['"']))
  | unterminatedString {cs : List Char} : Body cs → Spelled .unterminatedString ('"' :: cs)
  | char {c : Char} {cs : List Char} : c ≠ '\n' → (∀ d ∈ cs, d.isAlphanum) →
      Spelled .char ('\\' :: c :: cs)
  | readerPrefix {cs : List Char} : cs ∈ prefixes → Spelled .readerPrefix cs
  | symbol {c : Char} {cs : List Char} : startsSymbol c → (∀ d ∈ cs, endsSymbol d = false) →
      Spelled .symbol (c :: cs)
  /-- A backslash that starts no character literal. -/
  | backslash : Spelled .symbol ['\\']

theorem spelled_take_single {k : Kind} {d : Char} (hk : k.glyph? = some d) {cs : List Char}
    (h : 0 < singleLength d cs) : Spelled k (cs.take (singleLength d cs)) := by
  revert h
  fun_cases singleLength d cs with
  | case1 c cs hc =>
    intro _
    obtain rfl : c = d := by simpa using hc
    exact .delimiter hk
  | case2 | case3 => simp

theorem spelled_take_string {cs : List Char} (h : 0 < stringLength cs) :
    Spelled .string (cs.take (stringLength cs)) := by
  revert h
  fun_cases stringLength cs with
  | case1 cs n hquote =>
    intro _
    have hsplit : cs.take (n + 1) = cs.take n ++ ['"'] := by rw [List.take_add_one, hquote]; rfl
    rw [List.take_succ_cons, hsplit]
    exact .string (body_take cs)
  | case2 | case3 => simp

/-- A match of a rule is spelled as the kind of the rule asks. -/
theorem spelled_take_matchLength {k : Kind} {cs : List Char} (h : 0 < k.matchLength cs) :
    Spelled k (cs.take (k.matchLength cs)) := by
  cases k with
  | whitespace =>
    rw [Kind.matchLength, take_length_takeWhile]
    exact .whitespace fun c hc => of_mem_takeWhile hc
  | newline =>
    revert h
    simp only [Kind.matchLength]
    fun_cases newlineLength cs with
    | case1 => exact fun _ => .newline
    | case2 => exact fun _ => .returnNewline
    | case3 => simp
  | comment =>
    revert h
    simp only [Kind.matchLength]
    fun_cases commentLength cs with
    | case1 cs =>
      intro _
      rw [List.take_succ_cons, take_length_takeWhile]
      exact .comment fun c hc => by simpa using of_mem_takeWhile hc
    | case2 => simp
  | lparen | rparen | lbracket | rbracket | lbrace | rbrace => exact spelled_take_single rfl h
  | string => exact spelled_take_string h
  | unterminatedString =>
    revert h
    simp only [Kind.matchLength]
    fun_cases openStringLength cs with
    | case1 cs => exact fun _ => .unterminatedString (body_take cs)
    | case2 => simp
  | char =>
    revert h
    simp only [Kind.matchLength]
    fun_cases charLength cs with
    | case1 => simp
    | case2 c cs hc =>
      intro _
      rw [List.take_succ_cons, List.take_succ_cons, take_length_takeWhile]
      exact .char (by simpa using hc) fun d hd => of_mem_takeWhile hd
    | case3 => simp
  | readerPrefix => exact .readerPrefix (take_prefixLength h)
  | symbol =>
    revert h
    simp only [Kind.matchLength]
    fun_cases symbolLength cs with
    | case1 c cs hc =>
      intro _
      rw [List.take_succ_cons, take_length_takeWhile]
      exact .symbol hc fun d hd => by simpa using of_mem_takeWhile hd
    | case2 | case3 => simp
  | eof | root | list | vector | map | atom | prefixed | error => cases h

theorem prefixLength_pos {c : Char} (hc : isMarker c) (hne : c ≠ '\\') (cs : List Char) :
    0 < prefixLength (c :: cs) := by
  simp only [isMarker, Bool.or_eq_true, beq_iff_eq] at hc
  cases cs <;> generalize htext : List.cons c _ = text <;> fun_cases prefixLength text <;> grind

/-- A `lone` character, on which no rule starts, is a blank or a backslash. -/
theorem spelled_lone {c : Char} {cs : List Char}
    (h : ∀ k ∈ Kind.scanned, k.matchLength (c :: cs) = 0) :
    Spelled (lone c).kind (lone c).text := by
  by_cases hblank : isBlank c
  · rw [lone, if_pos hblank]
    exact .blank hblank
  · rw [lone, if_neg hblank]
    suffices c = '\\' by
      rw [this]
      exact .backslash
    refine Decidable.byContradiction fun hne => ?_
    -- a marker starts a prefix, so the character ends a symbol, and then some rule starts on it
    have hmarker : isMarker c = false := by
      have hpre := h .readerPrefix (by decide)
      refine Bool.eq_false_iff.mpr fun hm => ?_
      have hpos := prefixLength_pos hm hne cs
      simp only [Kind.matchLength] at hpre
      omega
    have hends : endsSymbol c := by
      have hsym := h .symbol (by decide)
      simpa [Kind.matchLength, symbolLength, startsSymbol, hmarker] using hsym
    have hcomma : c ≠ ',' := by
      rintro rfl
      have hws := h .whitespace (by decide)
      simp [Kind.matchLength, isSpacing] at hws
    have hbrackets : ∀ k ∈ Kind.scanned, ∀ d, k.matchLength (d :: cs) ≠ 0 → c ≠ d := by
      rintro k hk d hd rfl
      exact hd (h k hk)
    simp only [endsSymbol, hblank, hcomma, Bool.false_or, Bool.or_eq_true, beq_iff_eq,
      false_or] at hends
    rcases hends with (((((((hc | hc) | hc) | hc) | hc) | hc) | hc) | hc)
    · exact hbrackets .lparen (by decide) '(' (by simp [Kind.matchLength, singleLength]) hc
    · exact hbrackets .rparen (by decide) ')' (by simp [Kind.matchLength, singleLength]) hc
    · exact hbrackets .lbracket (by decide) '[' (by simp [Kind.matchLength, singleLength]) hc
    · exact hbrackets .rbracket (by decide) ']' (by simp [Kind.matchLength, singleLength]) hc
    · exact hbrackets .lbrace (by decide) '\x7b' (by simp [Kind.matchLength, singleLength]) hc
    · exact hbrackets .rbrace (by decide) '\x7d' (by simp [Kind.matchLength, singleLength]) hc
    · exact hbrackets .unterminatedString (by decide) '"'
        (by simp [Kind.matchLength, openStringLength]) hc
    · exact hbrackets .comment (by decide) ';' (by simp [Kind.matchLength, commentLength]) hc

theorem spelled_first (c : Char) (cs : List Char) :
    Spelled (first c cs).kind (first c cs).text := by
  rcases first_eq c cs with ⟨h, hnone⟩ | ⟨k, -, hpos, -, h⟩
  · rw [h]
    exact spelled_lone hnone
  · rw [h]
    exact spelled_take_matchLength hpos

/-- Every token of a `scan` is `Spelled` as its kind asks. -/
theorem spelled_of_mem_scan {cs : List Char} {t : Token} (ht : t ∈ scan cs) :
    Spelled t.kind t.text := by
  induction cs using scan_induction with
  | nil => exact absurd ht List.not_mem_nil
  | cons c cs rest hsplit hscan ih =>
    rw [hscan] at ht
    rcases List.mem_cons.mp ht with rfl | ht
    · exact spelled_first c cs
    · exact ih ht

/-! ### What follows a token -/

/-- A token of a kind that no lone character has is the longest match of its rule, by `matchLength`,
and no rule matches more; the rest is what the rule leaves. -/
theorem rest_first {c : Char} {cs rest : List Char} {k : Kind}
    (hsplit : c :: cs = (first c cs).text ++ rest) (h : (first c cs).kind = k)
    (hk : k ≠ .whitespace ∧ k ≠ .symbol) :
    rest = (c :: cs).drop (k.matchLength (c :: cs)) ∧ 0 < k.matchLength (c :: cs) ∧
      ∀ k' ∈ Kind.scanned, k'.matchLength (c :: cs) ≤ k.matchLength (c :: cs) := by
  have hpos := length_first_pos c cs
  have hdrop : (c :: cs).drop (first c cs).text.length = rest := by
    rw [hsplit, List.drop_left]
  rcases first_eq c cs with ⟨hlone, -⟩ | ⟨j, -, -, hmax, heq⟩
  · rw [hlone, lone] at h
    split at h
    · exact absurd h.symm hk.1
    · exact absurd h.symm hk.2
  · obtain rfl : j = k := by rw [heq] at h; exact h
    have hlen : (first c cs).text.length = j.matchLength (c :: cs) := by
      rw [heq, List.length_take, Nat.min_eq_left (Kind.matchLength_le j _)]
    rw [hlen] at hdrop hpos
    exact ⟨hdrop.symm, hpos, hmax⟩

/-- A comment is followed by the end of its line or of the text: the rest `StartsLineEnd`. -/
theorem comment_follow {c : Char} {cs rest : List Char}
    (hsplit : c :: cs = (first c cs).text ++ rest) (hk : (first c cs).kind = .comment) :
    StartsLineEnd rest := by
  obtain ⟨rfl, hpos, -⟩ := rest_first hsplit hk (by decide)
  exact startsLineEnd_drop hpos

/-- A string that lacks its quote is followed by nothing, or by a backslash that quotes nothing. -/
theorem unterminated_follow {c : Char} {cs rest : List Char}
    (hsplit : c :: cs = (first c cs).text ++ rest) (hk : (first c cs).kind = .unterminatedString) :
    rest = [] ∨ rest = ['\\'] := by
  obtain ⟨rfl, hpos, hmax⟩ := rest_first hsplit hk (by decide)
  exact drop_openString hpos (hmax .string (by decide))

theorem exists_first_text_eq (c : Char) (cs : List Char) : ∃ ds, (first c cs).text = c :: ds := by
  obtain ⟨n, hn⟩ := Nat.exists_eq_add_one.mpr (length_first_pos c cs)
  have h := take_first c cs
  rw [hn, List.take_succ_cons] at h
  exact ⟨_, h.symm⟩

/-- The token `u` may stand right after `t`: a comment goes on to the end of its line. -/
def Follows (t u : Token) : Prop :=
  t.kind = .comment → StartsLineEnd u.text

/-- In a `scan` each token `Follows` the one before: a comment is followed by the end of its
line. -/
theorem isChain_scan (cs : List Char) : (scan cs).IsChain Follows := by
  induction cs using scan_induction with
  | nil => exact .nil
  | cons c cs rest hsplit hscan ih =>
    rw [hscan]
    refine ih.cons fun u hu hk => ?_
    have hrest := comment_follow hsplit hk
    cases rest with
    | nil => cases hu
    | cons d rest =>
      rw [scan_cons] at hu
      obtain rfl := Option.some.inj hu
      obtain ⟨ds, hds⟩ := exists_first_text_eq d rest
      rw [hds]
      exact hrest

/-! ### What a kind tells of the text -/

/-- Only blanks and line ends start with a line end. -/
theorem Spelled.not_startsLineEnd {k : Kind} {cs : List Char} (h : Spelled k cs)
    (hk : k.isTrivia = false) : ¬StartsLineEnd cs := by
  cases h with
  | whitespace | blank | newline | returnNewline | comment => cases hk
  | delimiter hc => cases k <;> cases hc <;> decide
  | string | unterminatedString | char | backslash =>
    rintro (h | h) <;> cases h
  | readerPrefix hcs =>
    have hall : ∀ ds ∈ prefixes, ¬StartsLineEnd ds := by decide
    exact hall cs hcs
  | symbol hc =>
    rintro (rfl | rfl) <;> revert hc <;> decide

theorem Spelled.text_opener {o k : Kind} {cs : List Char} (h : Spelled o cs)
    (ho : o.collection? = some k) : cs = k.opening := by
  cases h with
  | delimiter hc => cases o <;> cases ho <;> cases hc <;> rfl
  | _ => cases ho

theorem Spelled.text_closer {c k : Kind} {cs : List Char} (h : Spelled c cs)
    (hk : k.ending? = some c) : cs = k.closing := by
  cases h with
  | delimiter hc => cases k <;> cases hk <;> cases hc <;> rfl
  | _ => cases k <;> cases hk

end Token

end SexpEdit
