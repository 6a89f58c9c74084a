/-
Reading a text by characters.

What a character is depends on the characters before it, and a `Mode` sums these up.  A watch does
so for texts without loose backslashes; modes follow character literals too, and so they are right
about every text.  In each mode some characters start a token.  The delimiters of a text are those
characters among them that open or close a collection.

* `delimiters_take` — the delimiters up to an offset are those of the tokens before it;
* `Text.balanced_iff_delimiters` — a text is balanced when its delimiters pair and it ends in no
  string;
* `Text.Steady.cut` — a cut whose ends are alike takes away the delimiters between them and leaves
  all others.
-/
import SexpEdit.Proofs.Balance
import SexpEdit.Proofs.LineStart

namespace SexpEdit

open Text
open Token (Spelled scan first widthOf)

/-- What a text is in after some characters. -/
inductive Mode where
  | code
  /-- After a hash that starts a token. -/
  | hash
  | symbol
  /-- After a backslash that starts a token. -/
  | backslash
  /-- In a character literal, after the character that is quoted. -/
  | literal
  | string
  /-- In a string, after a backslash. -/
  | escape
  | comment
  deriving DecidableEq, Repr

namespace Mode

/-- Whether a character starts a token. -/
def starts (m : Mode) (c : Char) : Bool :=
  match m with
  | code => true
  | hash => c != '_' && c != '?'
  | symbol => endsSymbol c
  | backslash => c == '\n'
  | literal => !c.isAlphanum
  | string | escape => false
  | comment => c == '\r' || c == '\n'

/-- The mode after the character `c` when it starts a token. -/
def start (c : Char) : Mode :=
  if c = '"' then string
  else if c = ';' then comment
  else if c = '\\' then backslash
  else if c = '#' then hash
  else if startsSymbol c then symbol
  else code

/-- The mode after the character `c` when it belongs to the token before it. -/
def goOn (m : Mode) (c : Char) : Mode :=
  match m with
  | hash => code
  | backslash => literal
  | string => if c = '"' then code else if c = '\\' then escape else string
  | escape => string
  | code | symbol | literal | comment => m

/-- The mode after one more character `c`, by `start` or `goOn`. -/
def next (m : Mode) (c : Char) : Mode :=
  if m.starts c then start c else m.goOn c

/-- The delimiter that the character `c` is in the mode `m`. -/
def delimiter? (m : Mode) (c : Char) : Option Kind :=
  if m.starts c then Kind.ofGlyph? c else none

/-- The mode after the characters `cs`: `next` for each of them. -/
def after (m : Mode) (cs : List Char) : Mode :=
  cs.foldl next m

/-- The delimiters of a text that is read from the mode `m` on. -/
def delimiters (m : Mode) : List Char → List Kind
  | [] => []
  | c :: cs => (m.delimiter? c).toList ++ delimiters (m.next c) cs

/-- Whether a `Mode` is inside a string. -/
def inString : Mode → Bool
  | string | escape => true
  | _ => false

/-- Outside strings, comments and the start of a character literal. -/
def inCode : Mode → Bool
  | code | hash | symbol | literal => true
  | _ => false

theorem after_cons (m : Mode) (c : Char) (cs : List Char) :
    m.after (c :: cs) = (m.next c).after cs :=
  rfl

theorem after_append (m : Mode) (cs ds : List Char) :
    m.after (cs ++ ds) = (m.after cs).after ds :=
  List.foldl_append

theorem delimiters_append (cs ds : List Char) : ∀ m : Mode,
    m.delimiters (cs ++ ds) = m.delimiters cs ++ (m.after cs).delimiters ds := by
  induction cs with
  | nil =>
    intro m
    rfl
  | cons c cs ih =>
    intro m
    rw [List.cons_append, delimiters, ih, delimiters, after_cons, List.append_assoc]

/-- Where a token `starts` nothing is left of the mode. -/
theorem next_of_starts {m : Mode} {c : Char} (h : m.starts c) : m.next c = start c :=
  if_pos h

theorem delimiters_of_starts {m : Mode} {c : Char} (h : m.starts c) (cs : List Char) :
    m.delimiters (c :: cs) = code.delimiters (c :: cs) := by
  have hcode : code.starts c = true := rfl
  rw [delimiters, delimiters, delimiter?, delimiter?, if_pos h, if_pos hcode, next_of_starts h,
    next_of_starts hcode]

theorem after_of_starts {m : Mode} {c : Char} (h : m.starts c) (cs : List Char) :
    m.after (c :: cs) = code.after (c :: cs) := by
  have hcode : code.starts c = true := rfl
  rw [after_cons, after_cons, next_of_starts h, next_of_starts hcode]

/-! ### Reading a token -/

/-- Characters that neither change the mode by `next` nor are delimiters. -/
theorem read_stay {m : Mode} {cs : List Char}
    (h : ∀ c ∈ cs, m.next c = m ∧ m.delimiter? c = none) :
    m.after cs = m ∧ m.delimiters cs = [] := by
  induction cs with
  | nil => exact ⟨rfl, rfl⟩
  | cons c cs ih =>
    obtain ⟨hnext, hdelim⟩ := h c (by simp)
    obtain ⟨hafter, hdelims⟩ := ih fun d hd => h d (by simp [hd])
    rw [after_cons, delimiters, hnext, hdelim]
    exact ⟨hafter, hdelims⟩

theorem stay_of_isBlank {c : Char} (h : isBlank c ∨ c = ',') :
    code.next c = code ∧ code.delimiter? c = none := by
  have hbare : Watch.Bare c ∧ c ≠ '\\' := by
    rcases h with h | rfl
    · exact Watch.bare_of_isBlank h
    · exact ⟨⟨by decide, by decide, rfl⟩, by decide⟩
  obtain ⟨⟨hquote, hsemi, hglyph⟩, hback⟩ := hbare
  have hends : endsSymbol c = true := by
    rcases h with h | rfl
    · simp [endsSymbol, h]
    · rfl
  have hhash : c ≠ '#' := by
    rintro rfl
    cases hends
  refine ⟨?_, hglyph⟩
  rw [next_of_starts rfl, start, if_neg hquote, if_neg hsemi, if_neg hback, if_neg hhash, if_neg]
  simp [startsSymbol, hends]

theorem read_body {cs : List Char} (h : Body cs) :
    string.after cs = string ∧ string.delimiters cs = [] := by
  induction h with
  | nil => exact ⟨rfl, rfl⟩
  | @plain c cs hquote hback _ ih =>
    have hnext : string.next c = string := by simp [next, starts, goOn, hquote, hback]
    rw [after_cons, delimiters, hnext]
    exact ih
  | escape _ ih => exact ih

/-- The mode after a token. -/
def behind (t : Token) : Mode :=
  match t.kind with
  | .comment => comment
  | .unterminatedString => string
  | .char => literal
  | .readerPrefix => if t.text = ['#'] then hash else code
  | .symbol => if t.text = ['\\'] then backslash else symbol
  | _ => code

end Mode

/-- A kind by itself when it is that of a delimiter. -/
def Kind.delimiters (k : Kind) : List Kind :=
  if k.isOpener || k.isCloser then [k] else []

open Mode

theorem start_of_startsSymbol {c : Char} (h : startsSymbol c) :
    Mode.start c = .symbol ∧ Kind.ofGlyph? c = none ∧ c ≠ '\\' := by
  simp only [startsSymbol, Bool.and_eq_true, Bool.not_eq_true'] at h
  obtain ⟨hends, hmarker⟩ := h
  obtain ⟨hquote, hsemi, hglyph⟩ := Watch.bare_of_endsSymbol_eq_false hends
  simp only [isMarker, Bool.or_eq_false_iff, beq_eq_false_iff_ne] at hmarker
  refine ⟨?_, hglyph, hmarker.1.2⟩
  rw [Mode.start, if_neg hquote, if_neg hsemi, if_neg hmarker.1.2, if_neg hmarker.2, if_pos]
  simp [startsSymbol, hends, isMarker, hmarker]

/-- A token that is `Spelled` as its kind asks is read as such. -/
theorem Token.Spelled.read {k : Kind} {cs : List Char} (h : Spelled k cs) :
    Mode.code.after cs = behind ⟨k, cs⟩ ∧ Mode.code.delimiters cs = k.delimiters := by
  cases h with
  | whitespace hcs =>
    exact read_stay fun c hc => stay_of_isBlank (Watch.isBlank_or_of_isSpacing (hcs c hc))
  | blank hc =>
    refine read_stay fun d hd => ?_
    rw [List.mem_singleton.mp hd]
    exact stay_of_isBlank (.inl hc)
  | newline => decide
  | returnNewline => decide
  | @comment cs hcs =>
    have hbody : Mode.comment.after cs = .comment ∧ Mode.comment.delimiters cs = [] := by
      refine read_stay fun c hc => ?_
      have hne := hcs c hc
      simp [next, goOn, delimiter?, starts, hne]
    exact hbody
  | delimiter hc => cases k <;> cases hc <;> decide
  | @string cs hcs =>
    obtain ⟨hafter, hdelims⟩ := read_body hcs
    have hquote : Mode.code.next '"' = .string := by decide
    rw [after_cons, after_append, Mode.delimiters, hquote, hafter, delimiters_append, hdelims,
      hafter]
    exact ⟨rfl, rfl⟩
  | @unterminatedString cs hcs => exact read_body hcs
  | @char c cs hc hcs =>
    have htail : Mode.literal.after cs = .literal ∧ Mode.literal.delimiters cs = [] := by
      refine read_stay fun d hd => ?_
      simp [next, goOn, delimiter?, starts, hcs d hd]
    have hback : Mode.code.next '\\' = .backslash := by decide
    have hquoted : Mode.backslash.next c = .literal := by simp [next, goOn, starts, hc]
    have hplain : Mode.backslash.delimiter? c = none := by simp [delimiter?, starts, hc]
    rw [after_cons, after_cons, Mode.delimiters, hback, Mode.delimiters, hquoted, hplain]
    exact htail
  | readerPrefix hcs =>
    have hall : ∀ ds ∈ prefixes, Mode.code.after ds = behind ⟨.readerPrefix, ds⟩ ∧
        Mode.code.delimiters ds = [] := by decide
    exact hall cs hcs
  | @symbol c cs hc hcs =>
    obtain ⟨hstart, hglyph, hback⟩ := start_of_startsSymbol hc
    have htail : Mode.symbol.after cs = .symbol ∧ Mode.symbol.delimiters cs = [] := by
      refine read_stay fun d hd => ?_
      simp [next, goOn, delimiter?, starts, hcs d hd]
    have hbehind : behind ⟨.symbol, c :: cs⟩ = .symbol := by
      refine if_neg fun heq => ?_
      exact hback (List.cons.inj heq).1
    have hplain : Mode.code.delimiter? c = none := hglyph
    rw [after_cons, Mode.delimiters, next_of_starts rfl, hstart, hplain, hbehind]
    exact htail
  | backslash => decide

/-- Inside a token there is no delimiter. -/
theorem Token.Spelled.delimiters_take {k : Kind} {cs : List Char} (h : Spelled k cs) {n : Nat}
    (hn : n < cs.length) : Mode.code.delimiters (cs.take n) = [] := by
  have hall := h.read.2
  rw [← List.take_append_drop n cs, delimiters_append] at hall
  by_cases hk : k.isOpener || k.isCloser
  · -- a delimiter is one character
    have hlen : cs.length = 1 := by
      cases h with
      | delimiter => rfl
      | _ => cases hk
    obtain rfl : n = 0 := by omega
    rfl
  · rw [Kind.delimiters, if_neg hk] at hall
    exact (List.append_eq_nil_iff.mp hall).1

/-! ### What follows a token -/

theorem not_of_takeWhile_append {p : Char → Bool} {cs rest : List Char} {d : Char}
    (h : cs = cs.takeWhile p ++ d :: rest) : p d = false := by
  have hdrop : cs.dropWhile p = d :: rest :=
    List.append_cancel_left (List.takeWhile_append_dropWhile.trans h)
  have hhead := List.head?_dropWhile_not p cs
  rw [hdrop] at hhead
  simpa using hhead

/-- A character literal, by `charLength`, goes on over letters and digits. -/
theorem char_follow {c d : Char} {cs rest : List Char} (hpos : 0 < charLength (c :: cs))
    (hsplit : c :: cs = (c :: cs).take (charLength (c :: cs)) ++ d :: rest) :
    d.isAlphanum = false := by
  revert hsplit hpos
  fun_cases charLength (c :: cs) with
  | case1 => simp
  | case2 e es hne =>
    intro _ hsplit
    rw [List.take_succ_cons, List.take_succ_cons, take_length_takeWhile] at hsplit
    exact not_of_takeWhile_append (List.cons.inj (List.cons.inj hsplit).2).2
  | case3 => simp

/-- A symbol goes on to a character that `endsSymbol`. -/
theorem symbol_follow {c d : Char} {cs rest : List Char} (hpos : 0 < symbolLength (c :: cs))
    (hsplit : c :: cs = (c :: cs).take (symbolLength (c :: cs)) ++ d :: rest) :
    startsSymbol c ∧ endsSymbol d := by
  by_cases hc : startsSymbol c
  · rw [symbolLength, if_pos hc, List.take_succ_cons, take_length_takeWhile] at hsplit
    have hends := not_of_takeWhile_append (List.cons.inj hsplit).2
    exact ⟨hc, by simpa using hends⟩
  · rw [symbolLength, if_neg hc] at hpos
    cases hpos

/-- A hash `#` is a prefix of its own only where no longer prefix starts with it. -/
theorem hash_follow {c d : Char} {cs rest : List Char}
    (hhash : (c :: cs).take (prefixLength (c :: cs)) = ['#'])
    (hsplit : c :: cs = (c :: cs).take (prefixLength (c :: cs)) ++ d :: rest) :
    d ≠ '_' ∧ d ≠ '?' := by
  rw [hhash, List.singleton_append] at hsplit
  obtain ⟨rfl, rfl⟩ := List.cons.inj hsplit
  have hlen := congrArg List.length hhash
  rw [List.length_take] at hlen
  constructor
  · rintro rfl
    simp [prefixLength] at hlen
  · rintro rfl
    cases rest with
    | nil => simp [prefixLength] at hlen
    | cons e rest =>
      rw [prefixLength_three] at hlen
      by_cases he : e = '@'
      · subst he
        simp [prefixLength] at hlen
      · simp [prefixLength, he] at hlen

/-- A backslash that starts no character literal stands before a line end. -/
theorem lone_follow {c d : Char} {rest : List Char}
    (hnone : ∀ k ∈ Kind.scanned, k.matchLength (c :: d :: rest) = 0) (hblank : ¬isBlank c) :
    c = '\\' ∧ d = '\n' := by
  have hspelled := Token.spelled_lone hnone
  rw [Token.lone, if_neg hblank] at hspelled
  obtain rfl : c = '\\' := by
    cases hspelled with
    | delimiter hc => cases hc
    | symbol hc =>
      have hsym := hnone .symbol (by decide)
      simp [Kind.matchLength, symbolLength, hc] at hsym
    | backslash => rfl
  have hchar := hnone .char (by decide)
  refine ⟨rfl, Decidable.byContradiction fun hne => ?_⟩
  simp [Kind.matchLength, charLength, hne] at hchar

/-- The character after a token `starts` the next one. -/
theorem starts_behind {c d : Char} {cs rest : List Char}
    (hsplit : c :: cs = (first c cs).text ++ d :: rest)
    (hk : (first c cs).kind ≠ .unterminatedString) : (behind (first c cs)).starts d := by
  rcases Token.first_eq c cs with ⟨hlone, hnone⟩ | ⟨k, -, hpos, -, heq⟩
  · by_cases hblank : isBlank c
    · rw [hlone, Token.lone, if_pos hblank]
      rfl
    · rw [Token.lone, if_neg hblank] at hlone
      rw [hlone, List.singleton_append] at hsplit
      obtain ⟨-, rfl⟩ := List.cons.inj hsplit
      obtain ⟨rfl, rfl⟩ := lone_follow hnone hblank
      rw [hlone]
      rfl
  · have hline := fun h => Token.comment_follow hsplit h
    rw [heq] at hsplit hk hline ⊢
    -- only these kinds leave a mode in which not every character starts a token
    cases k with
    | comment =>
      show (d == '\r' || d == '\n') = true
      rcases hline rfl with rfl | rfl <;> rfl
    | unterminatedString => exact absurd rfl hk
    | char =>
      show (!d.isAlphanum) = true
      rw [char_follow hpos hsplit]
      rfl
    | readerPrefix =>
      by_cases hhash : (c :: cs).take (Kind.readerPrefix.matchLength (c :: cs)) = ['#']
      · have hbehind : behind ⟨.readerPrefix, _⟩ = .hash := if_pos hhash
        obtain ⟨hne, hne'⟩ := hash_follow hhash hsplit
        rw [hbehind]
        show (d != '_' && d != '?') = true
        simp [hne, hne']
      · have hbehind : behind ⟨.readerPrefix, _⟩ = .code := if_neg hhash
        rw [hbehind]
        rfl
    | symbol =>
      obtain ⟨hstart, hends⟩ := symbol_follow hpos hsplit
      have hbehind : behind ⟨.symbol, (c :: cs).take (Kind.symbol.matchLength (c :: cs))⟩ =
          .symbol := by
        refine if_neg fun h => (start_of_startsSymbol hstart).2.2 ?_
        obtain ⟨n, hn⟩ := Nat.exists_eq_add_one.mpr hpos
        have h : (c :: cs).take (Kind.symbol.matchLength (c :: cs)) = ['\\'] := h
        rw [hn, List.take_succ_cons] at h
        exact (List.cons.inj h).1
      rw [hbehind]
      exact hends
    | _ => rfl

/-- What follows a token is read, in the mode `behind` it, as from its start. -/
theorem delimiters_behind {c : Char} {cs rest ds : List Char}
    (hsplit : c :: cs = (first c cs).text ++ rest) (hds : ds <+: rest) :
    (behind (first c cs)).delimiters ds = Mode.code.delimiters ds := by
  cases ds with
  | nil => rfl
  | cons d ds =>
    obtain ⟨es, rfl⟩ := hds
    by_cases hk : (first c cs).kind = .unterminatedString
    · -- only a backslash can follow
      have hbehind : behind (first c cs) = .string := by rw [behind, hk]
      rw [hbehind]
      rcases Token.unterminated_follow hsplit hk with h | h
      · cases h
      · rw [List.cons_append] at h
        obtain ⟨rfl, hnil⟩ := List.cons.inj h
        obtain ⟨rfl, -⟩ := List.append_eq_nil_iff.mp hnil
        rfl
    · exact delimiters_of_starts (starts_behind hsplit hk) ds

/-! ### The delimiters of a text -/

/-- **The delimiters up to an offset are those of the tokens before it**: the `Kind.delimiters` of
each. -/
theorem delimiters_take {cs : List Char} : ∀ {n : Nat} {ts us : List Token}, scan cs = ts ++ us →
    widthOf ts ≤ n → (∀ u ∈ us.head?, n < widthOf ts + u.text.length) →
    Mode.code.delimiters (cs.take n) = ts.flatMap (·.kind.delimiters) := by
  induction cs using Token.scan_induction with
  | nil =>
    intro n ts us hscan _ _
    rw [Token.scan_nil] at hscan
    obtain ⟨rfl, -⟩ := List.append_eq_nil_iff.mp hscan.symm
    rw [List.take_nil]
    rfl
  | cons c cs rest hsplit hscan ih =>
    intro n ts us hts hle hlt
    rw [hscan] at hts
    have hspelled := Token.spelled_first c cs
    cases ts with
    | nil =>
      obtain rfl : first c cs :: scan rest = us := hts
      have hn : n < (first c cs).text.length := by simpa using hlt _ rfl
      rw [hsplit, List.take_append_of_le_length (Nat.le_of_lt hn)]
      exact hspelled.delimiters_take hn
    | cons t ts =>
      obtain ⟨rfl, htail⟩ := List.cons.inj hts
      rw [Token.widthOf_cons] at hle
      have hlt' : ∀ u ∈ us.head?, n - (first c cs).text.length < widthOf ts + u.text.length := by
        intro u hu
        have h := hlt u hu
        rw [Token.widthOf_cons] at h
        omega
      have hrest := ih htail (by omega) hlt'
      obtain ⟨hafter, hdelims⟩ := hspelled.read
      rw [hsplit, List.take_append, List.take_of_length_le (by omega), delimiters_append, hafter,
        hdelims, delimiters_behind hsplit (List.take_prefix _ rest), hrest]
      rfl

theorem delimiters_scan (cs : List Char) :
    Mode.code.delimiters cs = (scan cs).flatMap (·.kind.delimiters) := by
  have hwidth : widthOf (scan cs) = cs.length := by rw [widthOf, Token.scan_text]
  have h := delimiters_take (List.append_nil (scan cs)).symm (Nat.le_of_eq hwidth)
    (fun u hu => by cases hu)
  rwa [List.take_length] at h

/-- A text ends `inString` when its last string lacks the quote. -/
theorem inString_after (cs : List Char) :
    (Mode.code.after cs).inString = true ↔ ∃ t ∈ scan cs, t.kind = .unterminatedString := by
  induction cs using Token.scan_induction with
  | nil => simp [Mode.after, Mode.inString, Token.scan_nil]
  | cons c cs rest hsplit hscan ih =>
    have hafter : Mode.code.after (c :: cs) = (behind (first c cs)).after rest := by
      rw [hsplit, after_append, (Token.spelled_first c cs).read.1]
    rw [hscan, hafter]
    by_cases hk : (first c cs).kind = .unterminatedString
    · have hbehind : behind (first c cs) = .string := by rw [behind, hk]
      refine ⟨fun _ => ⟨_, List.mem_cons_self, hk⟩, fun _ => ?_⟩
      rw [hbehind]
      rcases Token.unterminated_follow hsplit hk with rfl | rfl
      · rfl
      · rfl
    · have hskip : (∃ t ∈ first c cs :: scan rest, t.kind = .unterminatedString) ↔
          ∃ t ∈ scan rest, t.kind = .unterminatedString := by simp [hk]
      rw [hskip, ← ih]
      cases rest with
      | nil =>
        have hout : (behind (first c cs)).inString = false := by
          rw [behind]
          split <;> first
            | rfl
            | exact absurd ‹_› hk
            | split <;> rfl
        show (behind (first c cs)).inString = true ↔ Mode.code.inString = true
        rw [hout]
        rfl
      | cons d rest => rw [after_of_starts (starts_behind hsplit hk)]

namespace Kind

theorem pairAll_delimiters (awaited : List Kind) (ts : List Token) :
    pairAll awaited (ts.flatMap (·.kind.delimiters)) = pairAll awaited (ts.map Token.kind) := by
  induction ts generalizing awaited with
  | nil => rfl
  | cons t ts ih =>
    rw [List.flatMap_cons, List.map_cons]
    by_cases hk : t.kind.isOpener || t.kind.isCloser
    · rw [delimiters, if_pos hk, List.singleton_append, pairAll_cons, pairAll_cons]
      exact congrArg _ (funext ih)
    · have hplain : t.kind.closer? = none ∧ t.kind.isCloser = false := by
        revert hk
        cases t.kind <;> simp [isOpener, isCloser, closer?]
      rw [delimiters, if_neg hk, List.nil_append, pairAll_cons_of_not_delimiter hplain, ih]

end Kind

namespace Text

/-- **A text is `Balanced` when its delimiters pair and it ends in no string.** -/
theorem balanced_iff_delimiters (cs : List Char) :
    Balanced cs ↔ (Mode.code.after cs).inString = false ∧
      Kind.pairAll [] (Mode.code.delimiters cs) = some [] := by
  rw [delimiters_scan, Kind.pairAll_delimiters, Bool.eq_false_iff, ne_eq, inString_after]
  constructor
  · intro h
    refine ⟨?_, h.pairAll_scan⟩
    rintro ⟨t, ht, hk⟩
    exact h.2 t ht hk
  · rintro ⟨hterm, hpairs⟩
    exact ⟨(sound_iff_pairAll cs).mpr hpairs, fun t ht hk => hterm ⟨t, ht, hk⟩⟩

end Text

/-! ### Cutting a part out of a text -/

theorem toNat_of_isAlphanum {c : Char} (h : c.isAlphanum) :
    (48 ≤ c.toNat ∧ c.toNat ≤ 57) ∨ (65 ≤ c.toNat ∧ c.toNat ≤ 90) ∨
      (97 ≤ c.toNat ∧ c.toNat ≤ 122) := by
  change ((decide ('A'.val ≤ c.val ∧ c.val ≤ 'Z'.val) ||
    (decide ('a'.val ≤ c.val) && decide (c.val ≤ 'z'.val))) ||
    (decide ('0'.val ≤ c.val) && decide (c.val ≤ '9'.val))) = true at h
  simp only [Bool.or_eq_true, Bool.and_eq_true, decide_eq_true_eq, UInt32.le_iff_toNat_le] at h
  rcases h with (⟨h, h'⟩ | ⟨h, h'⟩) | ⟨h, h'⟩
  · exact .inr (.inl ⟨h, h'⟩)
  · exact .inr (.inr ⟨h, h'⟩)
  · exact .inl ⟨h, h'⟩

/-- No letter or digit `endsSymbol`. -/
theorem endsSymbol_of_isAlphanum {c : Char} (h : c.isAlphanum) : endsSymbol c = false := by
  have hrange := toNat_of_isAlphanum h
  have hblank : isBlank c = false := by
    simp only [isBlank, blankRanges, List.any_cons, List.any_nil, Bool.or_false,
      Bool.or_eq_false_iff, Bool.and_eq_false_iff, decide_eq_false_iff_not]
    omega
  have hne : ∀ d : Char, d.isAlphanum = false → c ≠ d := by
    rintro d hd rfl
    rw [h] at hd
    cases hd
  simp [endsSymbol, hblank, hne ',' rfl, hne '(' rfl, hne ')' rfl, hne '[' rfl, hne ']' rfl,
    hne '\x7b' rfl, hne '\x7d' rfl, hne '"' rfl, hne ';' rfl]

/-- In code a character that `endsSymbol` starts a token. -/
theorem starts_of_endsSymbol {m : Mode} (hm : m.inCode) {c : Char} (hc : endsSymbol c) :
    m.starts c := by
  cases m with
  | code => rfl
  | hash =>
    show (c != '_' && c != '?') = true
    rw [Bool.and_eq_true, bne_iff_ne, bne_iff_ne]
    constructor
    · rintro rfl
      cases hc
    · rintro rfl
      cases hc
  | symbol => exact hc
  | literal =>
    show (!c.isAlphanum) = true
    rw [Bool.not_eq_true']
    refine Bool.eq_false_iff.mpr fun h => ?_
    rw [endsSymbol_of_isAlphanum h] at hc
    cases hc
  | _ => cases hm

/-- In code a character that is not `endsSymbol` is no delimiter, and code goes on after it unless
it is a backslash. -/
theorem read_of_not_endsSymbol {m : Mode} (hm : m.inCode) {c : Char} (hc : endsSymbol c = false)
    (hback : c ≠ '\\') : (m.next c).inCode ∧ m.delimiter? c = none := by
  obtain ⟨hquote, hsemi, hglyph⟩ := Watch.bare_of_endsSymbol_eq_false hc
  constructor
  · by_cases hs : m.starts c
    · rw [next_of_starts hs, Mode.start, if_neg hquote, if_neg hsemi, if_neg hback]
      split
      · rfl
      · split <;> rfl
    · cases m with
      | code => exact absurd rfl hs
      | hash | symbol | literal =>
        rw [Mode.next, if_neg hs]
        rfl
      | _ => cases hm
  · rw [delimiter?, hglyph]
    split <;> rfl

/-- Modes `inCode` read a text alike when no backslash comes before the next character that ends a
symbol. -/
theorem read_alike {cs : List Char} (h : '\\' ∉ cs.takeWhile fun c => !endsSymbol c) :
    ∀ {m m' : Mode}, m.inCode → m'.inCode → m.delimiters cs = m'.delimiters cs ∧
      (m.after cs).inString = (m'.after cs).inString := by
  induction cs with
  | nil =>
    intro m m' hm hm'
    refine ⟨rfl, ?_⟩
    show m.inString = m'.inString
    cases m <;> cases hm <;> cases m' <;> cases hm' <;> rfl
  | cons c cs ih =>
    intro m m' hm hm'
    by_cases hc : endsSymbol c
    · -- a token starts here, whatever was before
      have hs := starts_of_endsSymbol hm hc
      have hs' := starts_of_endsSymbol hm' hc
      rw [delimiters_of_starts hs, delimiters_of_starts hs', after_of_starts hs,
        after_of_starts hs']
      exact ⟨rfl, rfl⟩
    · have hc : endsSymbol c = false := Bool.eq_false_iff.mpr hc
      rw [List.takeWhile_cons_of_pos (by simp [hc]), List.mem_cons, not_or] at h
      obtain ⟨hnext, hdelim⟩ := read_of_not_endsSymbol hm hc (Ne.symm h.1)
      obtain ⟨hnext', hdelim'⟩ := read_of_not_endsSymbol hm' hc (Ne.symm h.1)
      rw [Mode.delimiters, Mode.delimiters, hdelim, hdelim', after_cons, after_cons]
      exact ih h.2 hnext hnext'

namespace Text

/-- What comes after `stop` is read the same from `start`: the mode is the same at both offsets, or
both are in code and no backslash comes before the next character that ends a symbol. -/
def Steady (cs : List Char) (start stop : Nat) : Prop :=
  Mode.code.after (cs.take start) = Mode.code.after (cs.take stop) ∨
    (Mode.code.after (cs.take start)).inCode ∧ (Mode.code.after (cs.take stop)).inCode ∧
      '\\' ∉ (cs.drop stop).takeWhile fun c => !endsSymbol c

instance (cs : List Char) (start stop : Nat) : Decidable (Steady cs start stop) :=
  inferInstanceAs (Decidable (_ ∨ _))

/-- **A `Steady` cut takes away the delimiters between its ends and leaves all others.** -/
theorem Steady.cut {cs : List Char} {start stop : Nat} (h : Steady cs start stop) :
    Mode.code.delimiters (cs.take start ++ cs.drop stop) =
        Mode.code.delimiters (cs.take start) ++
          (Mode.code.after (cs.take stop)).delimiters (cs.drop stop) ∧
      (Mode.code.after (cs.take start ++ cs.drop stop)).inString =
        (Mode.code.after cs).inString := by
  have hwhole : Mode.code.after cs =
      (Mode.code.after (cs.take stop)).after (cs.drop stop) := by
    rw [← after_append, List.take_append_drop]
  rw [delimiters_append, after_append, hwhole]
  rcases h with h | ⟨hstart, hstop, hback⟩
  · rw [h]
    exact ⟨rfl, rfl⟩
  · obtain ⟨hdelims, hafter⟩ := read_alike hback hstart hstop
    rw [hdelims]
    exact ⟨rfl, hafter⟩

end Text

end SexpEdit
