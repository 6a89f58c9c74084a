/-
Where tokens end.

A rule looks one character past the end of its token and no further, unless the token is a string
that lacks its quote.  So a token stays when what follows it is changed, as long as the change
starts with the same character.  It also stays when a delimiter comes next: delimiters go on with no
token but a comment and a backslash that waits for a character.

* `first_relieved` — the first token of a text stays when other text takes the place of the rest;
* `scan_relieved` — the same for a row of tokens, of which only the last has other text after it;
* `scan_delimited` — delimiters put around some tokens are tokens of their own, and all others stay.
-/
import SexpEdit.Proofs.LineStart
import SexpEdit.Proofs.Pairing

namespace SexpEdit

open Text

namespace Text

/-- The characters of the delimiters. -/
def isBracket (c : Char) : Bool :=
  c == '(' || c == ')' || c == '[' || c == ']' || c == '\x7b' || c == '\x7d'

/-- What may take the place of `x` behind a token: text that starts with the same character, or with
a delimiter. -/
def Relieves (x y : List Char) : Prop :=
  y.head? = x.head? ∨ ∃ d, y.head? = some d ∧ isBracket d

theorem isBracket_cases {d : Char} (h : isBracket d) :
    d = '(' ∨ d = ')' ∨ d = '[' ∨ d = ']' ∨ d = '\x7b' ∨ d = '\x7d' := by
  simpa [isBracket, or_assoc] using h

theorem isSpacing_of_isBracket {d : Char} (h : isBracket d) : isSpacing d = false := by
  rcases isBracket_cases h with rfl | rfl | rfl | rfl | rfl | rfl <;> decide

theorem isAlphanum_of_isBracket {d : Char} (h : isBracket d) : d.isAlphanum = false := by
  rcases isBracket_cases h with rfl | rfl | rfl | rfl | rfl | rfl <;> decide

theorem endsSymbol_of_isBracket {d : Char} (h : isBracket d) : endsSymbol d := by
  rcases isBracket_cases h with rfl | rfl | rfl | rfl | rfl | rfl <;> decide

theorem isBracket_of_glyph? {k : Kind} {d : Char} (h : k.glyph? = some d) : isBracket d := by
  cases k <;> cases h <;> rfl

theorem Relieves.head?_ne {x y : List Char} (h : Relieves x y) {d : Char}
    (hd : isBracket d = false) (hx : x.head? ≠ some d) : y.head? ≠ some d := by
  rcases h with h | ⟨e, he, hbracket⟩
  · rw [h]
    exact hx
  · rw [he]
    rintro ⟨⟩
    rw [hbracket] at hd
    cases hd

/-- A character that passes where delimiters do not is that of `x`. -/
theorem Relieves.head?_of_pass {x y : List Char} (h : Relieves x y) {p : Char → Bool}
    (hp : ∀ d, isBracket d → p d = false) {d : Char} (hy : y.head? = some d) (hd : p d) :
    x.head? = some d := by
  rcases h with h | ⟨e, he, hbracket⟩
  · rw [← h, hy]
  · obtain rfl := Option.some.inj (hy.symm.trans he)
    rw [hp d hbracket] at hd
    cases hd

/-! ### Rules look one character ahead -/

/-- A run of characters that ended before `x` ends before `y`, when no character that passes comes
first in `y` and not in `x`. -/
theorem takeWhile_append_congr {p : Char → Bool} {cs x y : List Char}
    (hle : ((cs ++ x).takeWhile p).length ≤ cs.length)
    (hy : ∀ d, y.head? = some d → p d → x.head? = some d) :
    (cs ++ y).takeWhile p = (cs ++ x).takeWhile p := by
  rw [List.takeWhile_append] at hle
  rw [List.takeWhile_append, List.takeWhile_append]
  split at hle
  · next hall =>
    -- the run goes to the end of `cs`, so it ended because of the first character of `x`
    have hx : x.takeWhile p = [] := by
      rw [List.length_append] at hle
      exact List.length_eq_zero_iff.mp (by omega)
    have hnone : ∀ d, x.head? = some d → ¬p d := by
      intro d hd hpass
      cases x with
      | nil => cases hd
      | cons e x =>
        obtain rfl := Option.some.inj hd
        rw [List.takeWhile_cons, if_pos hpass] at hx
        cases hx
    have hy : y.takeWhile p = [] := by
      cases y with
      | nil => rfl
      | cons d y =>
        have hd : ¬p d := fun hd => hnone d (hy d rfl hd) hd
        rw [List.takeWhile_cons, if_neg hd]
    rw [if_pos hall, if_pos hall, hx, hy]
  · next hall => rw [if_neg hall, if_neg hall]

theorem newlineLength_cons (c : Char) (cs : List Char) :
    newlineLength (c :: cs) =
      if c = '\n' then 1 else if c = '\r' ∧ cs.head? = some '\n' then 2 else 0 := by
  by_cases hline : c = '\n'
  · simp [newlineLength, hline]
  · by_cases hreturn : c = '\r'
    · subst hreturn
      cases cs with
      | nil => rfl
      | cons d cs => by_cases hd : d = '\n' <;> simp [newlineLength, hd]
    · simp [newlineLength, hline, hreturn]

theorem newlineLength_relieved {c : Char} {cs x y : List Char}
    (hle : newlineLength (c :: (cs ++ x)) ≤ cs.length + 1) (h : Relieves x y) :
    newlineLength (c :: (cs ++ y)) = newlineLength (c :: (cs ++ x)) := by
  rw [newlineLength_cons] at hle
  rw [newlineLength_cons, newlineLength_cons]
  cases cs with
  | cons e cs => rfl
  | nil =>
    rw [List.nil_append] at hle
    rw [List.nil_append, List.nil_append]
    by_cases hc : c = '\r'
    · have hx : x.head? ≠ some '\n' := by
        intro hx
        rw [if_neg (by rw [hc]; decide), if_pos ⟨hc, hx⟩, List.length_nil] at hle
        omega
      have hy := h.head?_ne (by decide) hx
      simp [hx, hy]
    · simp [hc]

theorem commentLength_relieved {c : Char} {cs x y : List Char}
    (hle : commentLength (c :: (cs ++ x)) ≤ cs.length + 1)
    (hsame : c = ';' → y.head? = x.head?) :
    commentLength (c :: (cs ++ y)) = commentLength (c :: (cs ++ x)) := by
  by_cases hc : c = ';'
  · subst hc
    simp only [commentLength] at hle ⊢
    rw [takeWhile_append_congr (by omega) fun d hd _ => (hsame rfl) ▸ hd]
  · simp [commentLength, hc]

theorem charLength_relieved {c : Char} {cs x y : List Char}
    (hle : charLength (c :: (cs ++ x)) ≤ cs.length + 1) (h : Relieves x y)
    (hsame : c = '\\' → cs = [] → y.head? = x.head?) :
    charLength (c :: (cs ++ y)) = charLength (c :: (cs ++ x)) := by
  by_cases hc : c = '\\'
  · subst hc
    cases cs with
    | nil =>
      have hhead := hsame rfl rfl
      rw [List.nil_append] at hle
      rw [List.nil_append, List.nil_append]
      cases x with
      | nil =>
        cases y with
        | nil => rfl
        | cons d y => cases hhead
      | cons e x =>
        cases y with
        | nil => cases hhead
        | cons d y =>
          obtain rfl := Option.some.inj hhead
          simp only [charLength] at hle ⊢
          split
          · rfl
          · next hne =>
            rw [if_neg hne, List.length_nil] at hle
            omega
    | cons e cs =>
      simp only [List.cons_append, charLength, List.length_cons] at hle ⊢
      split
      · rfl
      · next hne =>
        rw [if_neg hne] at hle
        rw [takeWhile_append_congr (p := Char.isAlphanum) (by omega) fun d hd =>
          h.head?_of_pass (fun _ => isAlphanum_of_isBracket) hd]
  · simp [charLength, hc]

theorem symbolLength_relieved {c : Char} {cs x y : List Char}
    (hle : symbolLength (c :: (cs ++ x)) ≤ cs.length + 1) (h : Relieves x y) :
    symbolLength (c :: (cs ++ y)) = symbolLength (c :: (cs ++ x)) := by
  have hp : ∀ d, isBracket d → (!endsSymbol d) = false := by
    intro d hd
    rw [endsSymbol_of_isBracket hd]
    rfl
  by_cases hc : startsSymbol c
  · simp only [symbolLength, if_pos hc] at hle ⊢
    rw [takeWhile_append_congr (by omega) fun d hd => h.head?_of_pass hp hd]
  · simp [symbolLength, hc]

theorem prefixLength_tilde (cs : List Char) :
    prefixLength ('~' :: cs) = if cs.head? = some '@' then 2 else 1 := by
  cases cs with
  | nil => rfl
  | cons d cs => by_cases hd : d = '@' <;> simp [prefixLength, hd]

theorem prefixLength_hash (cs : List Char) :
    prefixLength ('#' :: cs) =
      if cs.head? = some '?' ∧ cs.tail.head? = some '@' then 3
      else if cs.head? = some '_' ∨ cs.head? = some '\'' ∨ cs.head? = some '?' then 2 else 1 := by
  cases cs with
  | nil => rfl
  | cons d cs =>
    by_cases hquery : d = '?'
    · subst hquery
      cases cs with
      | nil => rfl
      | cons e cs => by_cases he : e = '@' <;> simp [prefixLength, he]
    · simp [prefixLength, hquery]

theorem prefixLength_relieved {c : Char} {cs x y : List Char}
    (hle : prefixLength (c :: (cs ++ x)) ≤ cs.length + 1) (h : Relieves x y) :
    prefixLength (c :: (cs ++ y)) = prefixLength (c :: (cs ++ x)) := by
  by_cases htilde : c = '~'
  · subst htilde
    rw [prefixLength_tilde] at hle
    rw [prefixLength_tilde, prefixLength_tilde]
    cases cs with
    | cons e cs => rfl
    | nil =>
      have hx : x.head? ≠ some '@' := by
        intro hx
        rw [List.nil_append, if_pos hx, List.length_nil] at hle
        omega
      have hy := h.head?_ne (by decide) hx
      simp [hx, hy]
  · by_cases hhash : c = '#'
    · subst hhash
      rw [prefixLength_hash] at hle
      rw [prefixLength_hash, prefixLength_hash]
      match cs with
      | [] =>
        have hx : ¬(x.head? = some '_' ∨ x.head? = some '\'' ∨ x.head? = some '?') := by
          intro hx
          rw [List.nil_append, if_pos hx, List.length_nil] at hle
          split at hle <;> omega
        simp only [not_or] at hx
        obtain ⟨hx₁, hx₂, hx₃⟩ := hx
        have hy₁ := h.head?_ne (by decide) hx₁
        have hy₂ := h.head?_ne (by decide) hx₂
        have hy₃ := h.head?_ne (by decide) hx₃
        simp [hx₁, hx₂, hx₃, hy₁, hy₂, hy₃]
      | [e] =>
        by_cases he : e = '?'
        · subst he
          have hx : x.head? ≠ some '@' := by
            intro hx
            rw [if_pos ⟨rfl, hx⟩, List.length_singleton] at hle
            omega
          have hy := h.head?_ne (by decide) hx
          simp [hx, hy]
        · simp [he]
      | e :: f :: cs => rfl
    · cases cs <;> simp [prefixLength, htilde, hhash]

end Text

/-- A rule that matched no more than a token matches the same when the text that follows the token
`Relieves` into another. -/
theorem Kind.matchLength_relieved {c : Char} {cs x y : List Char}
    (hmax : ∀ k ∈ Kind.scanned, k.matchLength (c :: (cs ++ x)) ≤ cs.length + 1)
    (h : Relieves x y) (hquote : c ≠ '"')
    (hsame : c = ';' ∨ c = '\\' ∧ cs = [] → y.head? = x.head?) (k : Kind) :
    k.matchLength (c :: (cs ++ y)) = k.matchLength (c :: (cs ++ x)) := by
  cases k with
  | whitespace =>
    have hle : ((c :: cs ++ x).takeWhile isSpacing).length ≤ (c :: cs).length :=
      hmax .whitespace (by decide)
    have htake := takeWhile_append_congr hle fun d hd =>
      h.head?_of_pass (fun _ => isSpacing_of_isBracket) hd
    exact congrArg List.length htake
  | newline => exact newlineLength_relieved (hmax .newline (by decide)) h
  | comment =>
    exact commentLength_relieved (hmax .comment (by decide)) fun hc => hsame (.inl hc)
  | string => simp [matchLength, stringLength, hquote]
  | unterminatedString => simp [matchLength, openStringLength, hquote]
  | char =>
    exact charLength_relieved (hmax .char (by decide)) h fun hc hcs => hsame (.inr ⟨hc, hcs⟩)
  | readerPrefix => exact prefixLength_relieved (hmax .readerPrefix (by decide)) h
  | symbol => exact symbolLength_relieved (hmax .symbol (by decide)) h
  | _ => rfl

namespace Token

/-! ### The first token -/

/-- The backslash that waits for a character. -/
def backslash : Token :=
  ⟨.symbol, ['\\']⟩

theorem Spelled.kind_of_semicolon {k : Kind} {cs : List Char} (h : Spelled k (';' :: cs)) :
    k = .comment := by
  cases h with
  | whitespace hall => exact absurd (hall ';' (by simp)) (by decide)
  | blank hc => exact absurd hc (by decide)
  | comment => rfl
  | delimiter hc => cases k <;> cases hc
  | readerPrefix hcs =>
    have hall : prefixes.all fun cs => cs.head? != some ';' := by decide
    have hhead := List.all_eq_true.mp hall _ hcs
    simp at hhead
  | symbol hc => exact absurd hc (by decide)

theorem Spelled.kind_of_backslash {k : Kind} (h : Spelled k ['\\']) : k = .symbol := by
  cases h with
  | whitespace hall => exact absurd (hall '\\' (by simp)) (by decide)
  | blank hc => exact absurd hc (by decide)
  | delimiter hc => cases k <;> cases hc
  | readerPrefix hcs => exact absurd hcs (by decide)
  | symbol | backslash => rfl

theorem matchLength_le_length_first (c : Char) (cs : List Char) :
    ∀ k ∈ Kind.scanned, k.matchLength (c :: cs) ≤ (first c cs).text.length := by
  intro k hk
  rcases first_eq c cs with ⟨-, hnone⟩ | ⟨j, -, -, hmax, heq⟩
  · rw [hnone k hk]
    exact Nat.zero_le _
  · rw [heq, List.length_take, Nat.min_eq_left (Kind.matchLength_le j _)]
    exact hmax k hk

/-- **The first token stays when other text takes the place of the rest**, one that `Relieves` it,
unless it is a string without its quote. A comment and a backslash that waits for a character ask
for the same character after them. -/
theorem first_relieved {c : Char} {cs x y : List Char} {t : Token} (hfirst : first c (cs ++ x) = t)
    (htext : t.text = c :: cs) (h : Relieves x y) (hk : t.kind ≠ .unterminatedString)
    (hsame : t.kind = .comment ∨ t = backslash → y.head? = x.head?) : first c (cs ++ y) = t := by
  have hspelled := spelled_first c (cs ++ x)
  rw [hfirst, htext] at hspelled
  by_cases hquote : c = '"'
  · subst hquote
    obtain ⟨hkind, body, hbody, rfl⟩ := hspelled.body_of_quote hk
    have hstring := first_string hbody y
    have htoken : t = ⟨.string, '"' :: (body ++ ['"'])⟩ := by rw [← hkind, ← htext]
    rw [htoken, ← hstring]
    simp
  · have hmax : ∀ k ∈ Kind.scanned, k.matchLength (c :: (cs ++ x)) ≤ cs.length + 1 := by
      intro k hk
      have hle := matchLength_le_length_first c (cs ++ x) k hk
      rwa [hfirst, htext, List.length_cons] at hle
    have hsame' : c = ';' ∨ c = '\\' ∧ cs = [] → y.head? = x.head? := by
      rintro (rfl | ⟨rfl, rfl⟩)
      · exact hsame (.inl hspelled.kind_of_semicolon)
      · refine hsame (.inr ?_)
        rw [backslash, ← hspelled.kind_of_backslash, ← htext]
    have hlongest := Kind.longest_congr (Kind.matchLength_relieved hmax h hquote hsame')
      Kind.scanned (.symbol, 0)
    have hle : (Kind.longest (c :: (cs ++ x)) (.symbol, 0) Kind.scanned).2 ≤ cs.length + 1 := by
      rcases Kind.longest_eq (c :: (cs ++ x)) Kind.scanned (.symbol, 0) with h | ⟨k, hk, h, -⟩
      · rw [h]
        exact Nat.zero_le _
      · rw [h]
        exact hmax k hk
    rw [← hfirst]
    unfold first
    rw [hlongest]
    split
    · rfl
    · next k n _ heq =>
      rw [heq] at hle
      rw [← List.cons_append, ← List.cons_append, List.take_append_of_le_length hle,
        List.take_append_of_le_length hle]

/-! ### Rows of tokens -/

theorem exists_of_scan_eq_cons {cs : List Char} {t : Token} {ts : List Token}
    (h : scan cs = t :: ts) : ∃ c ds rest, cs = c :: (ds ++ rest) ∧ t.text = c :: ds ∧
      first c (ds ++ rest) = t ∧ scan rest = ts := by
  cases cs with
  | nil => cases h
  | cons c cs =>
    rw [scan_cons] at h
    obtain ⟨hfirst, hrest⟩ := List.cons.inj h
    obtain ⟨ds, hds⟩ := exists_first_text_eq c cs
    have hsplit := List.take_append_drop (first c cs).text.length (c :: cs)
    rw [take_first, hds, List.cons_append] at hsplit
    obtain ⟨-, hcs⟩ := List.cons.inj hsplit
    refine ⟨c, ds, (c :: cs).drop (first c cs).text.length, ?_, ?_, ?_, hrest⟩
    · rw [hds, hcs]
    · rw [← hfirst, hds]
    · rw [hds, hcs, hfirst]

/-- **A row of tokens stays when other text takes the place of what follows it**, with what its last
token asks for.  What followed was scanned on its own, and so is what takes its place. -/
theorem scan_relieved {ts us : List Token} {x y : List Char}
    (hscan : scan (ts.flatMap text ++ x) = ts ++ us) (h : Relieves x y)
    (hterm : ∀ t ∈ ts, t.kind ≠ .unterminatedString)
    (hlast : ∀ t, ts.getLast? = some t → t.kind = .comment ∨ t = backslash → y.head? = x.head?) :
    scan x = us ∧ scan (ts.flatMap text ++ y) = ts ++ scan y := by
  induction ts with
  | nil => exact ⟨hscan, rfl⟩
  | cons t ts ih =>
    obtain ⟨c, ds, rest, hcs, htext, hfirst, hrest⟩ := exists_of_scan_eq_cons hscan
    rw [List.flatMap_cons, htext, List.append_assoc, List.cons_append] at hcs
    obtain rfl := List.append_cancel_left (List.cons.inj hcs).2
    have hlast' : ∀ u, ts.getLast? = some u → u.kind = .comment ∨ u = backslash →
        y.head? = x.head? := by
      intro u hu
      refine hlast u ?_
      rw [List.getLast?_cons, hu]
      rfl
    obtain ⟨hx, hy⟩ := ih hrest (fun u hu => hterm u (by simp [hu])) hlast'
    have hkind := hterm t (by simp)
    have hfirst' : first c (ds ++ (ts.flatMap text ++ y)) = t := by
      cases ts with
      | nil => exact first_relieved hfirst htext h hkind (hlast t rfl)
      | cons u ts =>
        -- the next token has a first character, and that stays
        have hu : u.text ≠ [] := scan_text_ne_nil (by rw [hrest]; simp)
        obtain ⟨d, es, hes⟩ := List.exists_cons_of_ne_nil hu
        have hhead : ((u :: ts).flatMap text ++ y).head? = ((u :: ts).flatMap text ++ x).head? := by
          simp [hes]
        exact first_relieved hfirst htext (.inl hhead) hkind fun _ => hhead
    refine ⟨hx, ?_⟩
    rw [List.flatMap_cons, htext, List.append_assoc, List.cons_append]
    rw [scan_of_first hfirst' (by rw [htext, List.cons_append]), hy]
    rfl

/-- A token that starts with a character that `isBracket` is that delimiter. -/
theorem Spelled.glyph_of_isBracket {k : Kind} {c : Char} {cs : List Char}
    (h : Spelled k (c :: cs)) (hc : isBracket c) : cs = [] ∧ k.glyph? = some c := by
  have hends := endsSymbol_of_isBracket hc
  cases h with
  | whitespace hall =>
    have hspacing := hall c (by simp)
    rw [isSpacing_of_isBracket hc] at hspacing
    cases hspacing
  | blank hblank =>
    rcases isBracket_cases hc with rfl | rfl | rfl | rfl | rfl | rfl <;>
      exact absurd hblank (by decide)
  | delimiter hk => exact ⟨rfl, hk⟩
  | readerPrefix hcs =>
    have hall : prefixes.all fun cs => !cs.head?.any isBracket := by decide
    have hhead := List.all_eq_true.mp hall _ hcs
    simp [hc] at hhead
  | symbol hstarts =>
    rw [startsSymbol, hends] at hstarts
    cases hstarts
  | newline | returnNewline | comment | string | unterminatedString | char | backslash =>
    exact absurd hc (by decide)

/-- The `glyph?` of a delimiter is a token of its own. -/
theorem scan_glyph {k : Kind} {c : Char} (hc : k.glyph? = some c) (cs : List Char) :
    scan (c :: cs) = ⟨k, [c]⟩ :: scan cs := by
  have hspelled := spelled_first c cs
  obtain ⟨ds, hds⟩ := exists_first_text_eq c cs
  rw [hds] at hspelled
  obtain ⟨rfl, hk⟩ := hspelled.glyph_of_isBracket (isBracket_of_glyph? hc)
  have hkind : (first c cs).kind = k :=
    Option.some.inj ((Kind.ofGlyph?_of_glyph? hk).symm.trans (Kind.ofGlyph?_of_glyph? hc))
  have hfirst : first c cs = ⟨k, [c]⟩ := by rw [← hkind, ← hds]
  exact scan_of_first hfirst rfl

/-- A delimiter behind the tokens `ts` is a token of its own, and the row stays: no string in it
lacks its quote, no backslash waits for a character, and it does not end with a comment. -/
theorem scan_delimiter {ts us : List Token} {x : List Char}
    (hscan : scan (ts.flatMap text ++ x) = ts ++ us)
    (hterm : ∀ t ∈ ts, t.kind ≠ .unterminatedString ∧ t ≠ backslash)
    (hlast : ∀ t, ts.getLast? = some t → t.kind ≠ .comment) {k : Kind} {c : Char}
    (hc : k.glyph? = some c) (y : List Char) :
    scan x = us ∧ scan (ts.flatMap text ++ c :: y) = ts ++ ⟨k, [c]⟩ :: scan y := by
  have hrelieves : Relieves x (c :: y) := .inr ⟨c, rfl, isBracket_of_glyph? hc⟩
  have hfree : ∀ t, ts.getLast? = some t → t.kind = .comment ∨ t = backslash →
      (c :: y).head? = x.head? := by
    rintro t ht (hcomment | hback)
    · exact absurd hcomment (hlast t ht)
    · exact absurd hback (hterm t (List.mem_of_getLast? ht)).2
  rw [← scan_glyph hc]
  exact scan_relieved hscan hrelieves (fun t ht => (hterm t ht).1) hfree

/-- **Delimiters around the tokens `F` of a text are tokens of their own, and all others stay.** -/
theorem scan_delimited {L F R : List Token} {cs : List Char} (hscan : scan cs = L ++ (F ++ R))
    (hterm : ∀ t ∈ scan cs, t.kind ≠ .unterminatedString ∧ t ≠ backslash)
    (hL : ∀ t, L.getLast? = some t → t.kind ≠ .comment)
    (hF : ∀ t, F.getLast? = some t → t.kind ≠ .comment) {j k : Kind} {o c : Char}
    (ho : j.glyph? = some o) (hc : k.glyph? = some c) :
    scan (L.flatMap text ++ o :: (F.flatMap text ++ c :: R.flatMap text)) =
      L ++ ⟨j, [o]⟩ :: (F ++ ⟨k, [c]⟩ :: R) := by
  have htext : cs = L.flatMap text ++ (F.flatMap text ++ R.flatMap text) := by
    rw [← scan_text cs, hscan, List.flatMap_append, List.flatMap_append]
  rw [htext] at hscan hterm
  rw [hscan] at hterm
  obtain ⟨hrest, hopen⟩ := scan_delimiter hscan (fun t ht => hterm t (by simp [ht])) hL ho
    (F.flatMap text ++ c :: R.flatMap text)
  obtain ⟨hafter, hclose⟩ := scan_delimiter hrest (fun t ht => hterm t (by simp [ht])) hF hc
    (R.flatMap text)
  rw [hopen, hclose, hafter]

end Token

end SexpEdit
