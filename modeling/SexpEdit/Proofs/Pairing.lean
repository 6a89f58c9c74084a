/-
Pairing delimiters.

A watch reads a text one character at a time.  It knows whether it is in code, in a string or in a
comment, and it keeps the closers that it waits for, innermost first.  It takes no backslash outside
strings and comments, where the next character could be a delimiter that is not one.  A scan has to
start over when the text changes; what a watch has read is summed up in its state, so that a text
can be cut and put together anywhere.

* `Watch.run_tokens` — over the tokens of a text a watch does what `Kind.pair` does with their
  kinds;
* `Watch.Reads.tokens` — what a watch reads to the end has no loose backslash and no open string,
  and its delimiters pair;
* `Watch.Reads.replace` — a part that leaves a watch as it was may be replaced by another one.
-/
import SexpEdit.Proofs.Spelling

namespace SexpEdit

open Text

namespace Kind

/-- The closers awaited after one more token of kind `k`: an opener adds its closer, and a closer
takes off the innermost one, if that is the one awaited. -/
def pair (awaited : List Kind) (k : Kind) : Option (List Kind) :=
  match k.closer? with
  | some c => some (c :: awaited)
  | none =>
    if k.isCloser then
      match awaited with
      | [] => none
      | a :: rest => if a = k then some rest else none
    else some awaited

/-- The closers awaited after more tokens, of the kinds `ks`: `pair` for each of them. -/
def pairAll (awaited : List Kind) (ks : List Kind) : Option (List Kind) :=
  ks.foldlM pair awaited

theorem pairAll_cons (awaited : List Kind) (k : Kind) (ks : List Kind) :
    pairAll awaited (k :: ks) = (pair awaited k).bind (pairAll · ks) :=
  List.foldlM_cons

theorem pairAll_append (awaited : List Kind) (ks js : List Kind) :
    pairAll awaited (ks ++ js) = (pairAll awaited ks).bind (pairAll · js) :=
  List.foldlM_append

theorem pair_of_not_delimiter {k : Kind} (ho : k.closer? = none) (hc : k.isCloser = false)
    (awaited : List Kind) : pair awaited k = some awaited := by
  unfold pair
  rw [ho, hc]
  rfl

theorem pair_opener {o c : Kind} (h : o.closer? = some c) (awaited : List Kind) :
    pair awaited o = some (c :: awaited) := by
  unfold pair
  rw [h]

theorem closer?_of_isCloser {c : Kind} (h : c.isCloser) : c.closer? = none := by
  cases c <;> simp_all [isCloser, closer?]

theorem pair_closer {c : Kind} (h : c.isCloser) (awaited : List Kind) :
    pair (c :: awaited) c = some awaited := by
  unfold pair
  rw [closer?_of_isCloser h]
  simp [h]

/-- A closer is taken by `pair` only when it is awaited. -/
theorem eq_cons_of_pair_closer {c : Kind} (h : c.isCloser) {awaited rest : List Kind}
    (hp : pair awaited c = some rest) : awaited = c :: rest := by
  unfold pair at hp
  rw [closer?_of_isCloser h] at hp
  cases awaited with
  | nil => simp [h] at hp
  | cons a awaited =>
    by_cases ha : a = c
    · simp only [h, ha, if_true, Option.some.injEq] at hp
      rw [ha, hp]
    · simp [h, ha] at hp

/-- The delimiter that a character is. -/
def ofGlyph? : Char → Option Kind
  | '(' => some lparen
  | ')' => some rparen
  | '[' => some lbracket
  | ']' => some rbracket
  | '\x7b' => some lbrace
  | '\x7d' => some rbrace
  | _ => none

theorem ofGlyph?_of_glyph? {k : Kind} {c : Char} (h : k.glyph? = some c) : ofGlyph? c = some k := by
  cases k <;> cases h <;> rfl

end Kind

/-- What a watch is in. -/
inductive Watch.Mode where
  | code
  | string
  /-- In a string, after a backslash. -/
  | escape
  | comment
  deriving DecidableEq

/-- The `Mode` a watch is in, and the closers it waits for, innermost first. -/
structure Watch where
  mode : Watch.Mode
  awaited : List Kind

namespace Watch

/-- Reads the character `c`; `none` when the watch cannot. -/
def step (w : Watch) (c : Char) : Option Watch :=
  match w.mode with
  | .code =>
    if c = '"' then some ⟨.string, w.awaited⟩
    else if c = ';' then some ⟨.comment, w.awaited⟩
    else if c = '\\' then none
    else
      match Kind.ofGlyph? c with
      | none => some ⟨.code, w.awaited⟩
      | some k => (k.pair w.awaited).map (⟨.code, ·⟩)
  | .string =>
    if c = '"' then some ⟨.code, w.awaited⟩
    else if c = '\\' then some ⟨.escape, w.awaited⟩
    else some ⟨.string, w.awaited⟩
  | .escape => some ⟨.string, w.awaited⟩
  | .comment =>
    if c = '\r' ∨ c = '\n' then some ⟨.code, w.awaited⟩ else some ⟨.comment, w.awaited⟩

/-- Reads the text `cs`, by `step` for each character. -/
def run (w : Watch) (cs : List Char) : Option Watch :=
  cs.foldlM step w

theorem run_cons (w : Watch) (c : Char) (cs : List Char) :
    run w (c :: cs) = (step w c).bind (run · cs) :=
  List.foldlM_cons

theorem run_append (w : Watch) (cs ds : List Char) :
    run w (cs ++ ds) = (run w cs).bind (run · ds) :=
  List.foldlM_append

/-! ### Reading a token -/

/-- A character that neither starts a string or a comment nor is a delimiter. -/
def Bare (c : Char) : Prop :=
  c ≠ '"' ∧ c ≠ ';' ∧ Kind.ofGlyph? c = none

theorem bare_of_endsSymbol_eq_false {c : Char} (h : endsSymbol c = false) : Bare c := by
  simp only [endsSymbol, Bool.or_eq_false_iff, beq_eq_false_iff_ne] at h
  refine ⟨h.1.2, h.2, ?_⟩
  unfold Kind.ofGlyph?
  split <;> simp_all

theorem bare_of_isBlank {c : Char} (h : isBlank c) : Bare c ∧ c ≠ '\\' := by
  have hne : ∀ d, isBlank d = false → c ≠ d := by
    rintro d hd rfl
    rw [h] at hd
    cases hd
  refine ⟨⟨hne _ (by decide), hne _ (by decide), ?_⟩, hne _ (by decide)⟩
  unfold Kind.ofGlyph?
  split
  · exact absurd rfl (hne '(' (by decide))
  · exact absurd rfl (hne ')' (by decide))
  · exact absurd rfl (hne '[' (by decide))
  · exact absurd rfl (hne ']' (by decide))
  · exact absurd rfl (hne '\x7b' (by decide))
  · exact absurd rfl (hne '\x7d' (by decide))
  · rfl

theorem isBlank_or_of_isSpacing {c : Char} (h : isSpacing c) : isBlank c ∨ c = ',' := by
  simp only [isSpacing, Bool.or_eq_true, beq_iff_eq] at h
  rcases h with ((rfl | rfl) | rfl) | rfl
  · exact .inl (by decide)
  · exact .inl (by decide)
  · exact .inl (by decide)
  · exact .inr rfl

theorem bare_of_isSpacing {c : Char} (h : isSpacing c) : Bare c ∧ c ≠ '\\' := by
  rcases isBlank_or_of_isSpacing h with h | rfl
  · exact bare_of_isBlank h
  · exact ⟨⟨by decide, by decide, rfl⟩, by decide⟩

theorem bare_of_mem_lineEnd {c : Char} (h : c ∈ ['\r', '\n']) : Bare c ∧ c ≠ '\\' := by
  simp only [List.mem_cons, List.not_mem_nil, or_false] at h
  rcases h with rfl | rfl
  · exact bare_of_isBlank (by decide)
  · exact bare_of_isBlank (by decide)

/-- Characters that are `Bare` leave a watch in code as it is, unless there is a backslash among
them. -/
theorem run_bare (awaited : List Kind) {cs : List Char} (h : ∀ c ∈ cs, Bare c) :
    run ⟨.code, awaited⟩ cs = if '\\' ∈ cs then none else some ⟨.code, awaited⟩ := by
  induction cs with
  | nil => rfl
  | cons c cs ih =>
    obtain ⟨hquote, hsemi, hglyph⟩ := h c (by simp)
    rw [run_cons]
    by_cases hc : c = '\\'
    · simp [step, hc]
    · have hstep : step ⟨.code, awaited⟩ c = some ⟨.code, awaited⟩ := by
        simp [step, hquote, hsemi, hc, hglyph]
      rw [hstep, Option.bind_some, ih fun d hd => h d (by simp [hd])]
      simp [Ne.symm hc]

theorem run_body (awaited : List Kind) {cs : List Char} (h : Body cs) :
    run ⟨.string, awaited⟩ cs = some ⟨.string, awaited⟩ := by
  induction h with
  | nil => rfl
  | plain hquote hback _ ih =>
    rw [run_cons]
    simpa [step, hquote, hback] using ih
  | escape _ ih =>
    rw [run_cons, step]
    simpa [run_cons, step] using ih

theorem run_comment (awaited : List Kind) {cs : List Char} (h : ∀ c ∈ cs, c ≠ '\r' ∧ c ≠ '\n') :
    run ⟨.comment, awaited⟩ cs = some ⟨.comment, awaited⟩ := by
  induction cs with
  | nil => rfl
  | cons c cs ih =>
    have hc := h c (by simp)
    rw [run_cons]
    simpa [step, hc] using ih fun d hd => h d (by simp [hd])

instance (c : Char) : Decidable (Bare c) :=
  inferInstanceAs (Decidable (_ ∧ _ ∧ _))

theorem run_commentToken (awaited : List Kind) {cs : List Char} (h : Token.Spelled .comment cs) :
    run ⟨.code, awaited⟩ cs = some ⟨.comment, awaited⟩ := by
  cases h with
  | comment hcs =>
    rw [run_cons]
    exact run_comment awaited hcs
  | delimiter hk => cases hk

theorem run_openString (awaited : List Kind) {cs : List Char}
    (h : Token.Spelled .unterminatedString cs) :
    run ⟨.code, awaited⟩ cs = some ⟨.string, awaited⟩ := by
  cases h with
  | unterminatedString hcs =>
    rw [run_cons]
    exact run_body awaited hcs
  | delimiter hk => cases hk

/-- Any other token is read by `run` as its kind, unless it has a backslash and is no string. -/
theorem run_token (awaited : List Kind) {k : Kind} {cs : List Char} (h : Token.Spelled k cs)
    (hcomment : k ≠ .comment) (hopen : k ≠ .unterminatedString) :
    run ⟨.code, awaited⟩ cs =
      if '\\' ∈ cs ∧ k ≠ .string then none else (k.pair awaited).map (⟨.code, ·⟩) := by
  -- most kinds are of bare characters, and such kinds pair with nothing
  have hbare : ∀ {j : Kind}, j.closer? = none → j.isCloser = false → j ≠ .string →
      (∀ c ∈ cs, Bare c) → run ⟨.code, awaited⟩ cs =
        if '\\' ∈ cs ∧ j ≠ .string then none else (j.pair awaited).map (⟨.code, ·⟩) := by
    intro j ho hc hs hcs
    rw [run_bare awaited hcs, Kind.pair_of_not_delimiter ho hc]
    simp [hs]
  cases h with
  | whitespace hcs => exact hbare rfl rfl (by decide) fun c hc => (bare_of_isSpacing (hcs c hc)).1
  | blank hc =>
    refine hbare rfl rfl (by decide) fun d hd => ?_
    rw [List.mem_singleton.mp hd]
    exact (bare_of_isBlank hc).1
  | newline => exact hbare rfl rfl (by decide) fun c hc => (bare_of_mem_lineEnd (by simp_all)).1
  | returnNewline => exact hbare rfl rfl (by decide) fun c hc => (bare_of_mem_lineEnd hc).1
  | comment hcs => exact absurd rfl hcomment
  | @delimiter k c hk =>
    have hglyph := Kind.ofGlyph?_of_glyph? hk
    have hne : ∀ d, Kind.ofGlyph? d = none → c ≠ d := by
      rintro d hd rfl
      rw [hglyph] at hd
      cases hd
    have hback : '\\' ∉ [c] := by simp [Ne.symm (hne '\\' rfl)]
    rw [if_neg fun h => hback h.1, run_cons]
    simp only [step, hne '"' rfl, hne ';' rfl, hne '\\' rfl, hglyph, if_false]
    cases k.pair awaited <;> rfl
  | @string cs hcs =>
    have hbody : run ⟨.string, awaited⟩ (cs ++ ['"']) = some ⟨.code, awaited⟩ := by
      rw [run_append, run_body awaited hcs]
      rfl
    rw [if_neg fun h => h.2 rfl, run_cons]
    exact hbody
  | unterminatedString hcs => exact absurd rfl hopen
  | char => simp [run_cons, step]
  | readerPrefix hcs =>
    have hall : ∀ ds ∈ prefixes, ds.all fun c => decide (Bare c) := by decide
    refine hbare rfl rfl (by decide) fun c hc => ?_
    simpa using List.all_eq_true.mp (hall _ hcs) c hc
  | @symbol c cs hc hcs =>
    refine hbare rfl rfl (by decide) fun d hd => bare_of_endsSymbol_eq_false ?_
    rcases List.mem_cons.mp hd with rfl | hd
    · simp only [startsSymbol, Bool.and_eq_true, Bool.not_eq_true'] at hc
      exact hc.1
    · exact hcs d hd
  | backslash => simp [run_cons, step]

end Watch

/-! ### Reading tokens -/

namespace Token

/-- A backslash outside strings and comments. -/
def HasLooseBackslash (t : Token) : Prop :=
  '\\' ∈ t.text ∧ t.kind.isString = false ∧ t.kind ≠ .comment

instance (t : Token) : Decidable t.HasLooseBackslash :=
  inferInstanceAs (Decidable (_ ∧ _ ∧ _))

/-- A token that a watch can read. -/
structure Plain (t : Token) : Prop where
  spelled : Spelled t.kind t.text
  ne_nil : t.text ≠ []
  terminated : t.kind ≠ .unterminatedString
  no_backslash : ¬t.HasLooseBackslash

/-- Tokens that are `Plain`, so that a watch can read them, where every comment goes on to the end
of its line. -/
structure Settled (ts : List Token) : Prop where
  plain : ∀ t ∈ ts, t.Plain
  chain : ts.IsChain Follows

theorem Settled.left {ts us : List Token} (h : Settled (ts ++ us)) : Settled ts :=
  ⟨fun t ht => h.plain t (List.mem_append_left us ht), h.chain.left_of_append⟩

theorem Settled.right {ts us : List Token} (h : Settled (ts ++ us)) : Settled us :=
  ⟨fun t ht => h.plain t (List.mem_append_right ts ht), h.chain.right_of_append⟩

/-- The last token is no comment. -/
def Stops (ts : List Token) : Prop :=
  ∀ t ∈ ts.getLast?, t.kind ≠ .comment

instance (ts : List Token) : Decidable (Stops ts) :=
  inferInstanceAs (Decidable (∀ t ∈ ts.getLast?, t.kind ≠ .comment))

theorem stops_nil : Stops [] := by
  intro t ht
  cases ht

theorem stops_append {ts us : List Token} (h : us ≠ []) : Stops (ts ++ us) ↔ Stops us := by
  have hlast : (ts ++ us).getLast? = us.getLast? := by
    rw [List.getLast?_append, List.getLast?_eq_some_getLast h, Option.some_or]
  rw [Stops, Stops, hlast]

theorem stops_append_singleton {ts : List Token} {t : Token} :
    Stops (ts ++ [t]) ↔ t.kind ≠ .comment := by
  simp [Stops]

theorem stops_cons_cons {t u : Token} {ts : List Token} :
    Stops (t :: u :: ts) ↔ Stops (u :: ts) := by
  simp [Stops]

/-- Before a token that does not start with a line end no comment stands, so `Stops` holds there. -/
theorem Settled.stops {ts us : List Token} {u : Token} (h : Settled (ts ++ u :: us))
    (hu : ¬StartsLineEnd u.text) : Stops ts := by
  intro t ht hk
  obtain ⟨hts, -, hlast⟩ := List.isChain_append.mp h.chain
  exact hu (hlast t ht u rfl hk)

end Token

namespace Watch

open Token

/-- The mode of a watch after the tokens `ts`. -/
def modeAfter (ts : List Token) : Mode :=
  if Stops ts then .code else .comment

theorem modeAfter_of_stops {ts : List Token} (h : Stops ts) : modeAfter ts = .code :=
  if_pos h

theorem modeAfter_cons_cons (t u : Token) (ts : List Token) :
    modeAfter (t :: u :: ts) = modeAfter (u :: ts) := by
  simp only [modeAfter, stops_cons_cons]

/-- A line end takes a watch out of a comment. -/
theorem run_lineEnd (awaited : List Kind) {cs : List Char} (h : StartsLineEnd cs) (hne : cs ≠ []) :
    run ⟨.comment, awaited⟩ cs = run ⟨.code, awaited⟩ cs := by
  cases cs with
  | nil => exact absurd rfl hne
  | cons c cs =>
    rw [run_cons, run_cons]
    rcases h with rfl | rfl <;> rfl

theorem run_plain (awaited : List Kind) {t : Token} (ht : t.Plain) (hk : t.kind ≠ .comment) :
    run ⟨.code, awaited⟩ t.text = (t.kind.pair awaited).map (⟨.code, ·⟩) := by
  rw [run_token awaited ht.spelled hk ht.terminated, if_neg]
  rintro ⟨hback, hstring⟩
  refine ht.no_backslash ⟨hback, ?_, hk⟩
  have hopen := ht.terminated
  revert hstring hopen
  cases t.kind <;> simp [Kind.isString]

/-- **A watch reads `Settled` tokens as their kinds.** -/
theorem run_tokens {ts : List Token} (h : Settled ts) (awaited : List Kind) :
    run ⟨.code, awaited⟩ (ts.flatMap text) =
      (Kind.pairAll awaited (ts.map kind)).map (⟨modeAfter ts, ·⟩) := by
  induction ts generalizing awaited with
  | nil => rfl
  | cons t ts ih =>
    have ht := h.plain t (by simp)
    have hrest : Settled ts := @Settled.right [t] ts h
    rw [List.flatMap_cons, run_append, List.map_cons, Kind.pairAll_cons]
    by_cases hk : t.kind = .comment
    · have hpair : t.kind.pair awaited = some awaited := by
        rw [hk]
        rfl
      rw [run_commentToken awaited (hk ▸ ht.spelled), hpair, Option.bind_some, Option.bind_some]
      cases ts with
      | nil =>
        have hmode : modeAfter [t] = .comment := by simp [modeAfter, Stops, hk]
        rw [hmode]
        rfl
      | cons u ts =>
        -- the comment goes on to a line end, so the watch is back in code for the next token
        have hu := (h.chain.rel_head? rfl : Follows t u) hk
        have hne : (u :: ts).flatMap text ≠ [] := by simp [(hrest.plain u (by simp)).ne_nil]
        have hstart : StartsLineEnd ((u :: ts).flatMap text) := by
          obtain ⟨c, cs, hcs⟩ := List.exists_cons_of_ne_nil (hrest.plain u (by simp)).ne_nil
          rw [hcs] at hu
          rw [List.flatMap_cons, hcs]
          exact hu
        rw [run_lineEnd awaited hstart hne, ih hrest, modeAfter_cons_cons]
    · rw [run_plain awaited ht hk]
      cases hpair : t.kind.pair awaited with
      | none => rfl
      | some awaited' =>
        rw [Option.map_some, Option.bind_some, Option.bind_some, ih hrest]
        cases ts with
        | nil =>
          have hmode : modeAfter [t] = .code := by simp [modeAfter, Stops, hk]
          rw [hmode]
          rfl
        | cons u ts => rw [modeAfter_cons_cons]

/-- A watch in code reads a text to the end and is in no string then; it waits for `awaited` before
the text, and for `rest` after it. -/
def Reads (awaited : List Kind) (cs : List Char) (rest : List Kind) : Prop :=
  ∃ m, (m = .code ∨ m = .comment) ∧ run ⟨.code, awaited⟩ cs = some ⟨m, rest⟩

theorem reads_tokens {ts : List Token} (h : Settled ts) {awaited rest : List Kind}
    (hpairs : Kind.pairAll awaited (ts.map kind) = some rest) :
    Reads awaited (ts.flatMap text) rest := by
  refine ⟨modeAfter ts, ?_, ?_⟩
  · unfold modeAfter
    split
    · exact .inl rfl
    · exact .inr rfl
  · rw [run_tokens h, hpairs]
    rfl

/-- What a watch `Reads` starts with a `Plain` token, and it reads the rest from where that
leads. -/
theorem Reads.first {c : Char} {cs rest : List Char} {awaited out : List Kind}
    (h : Reads awaited (c :: cs) out) (hsplit : c :: cs = (first c cs).text ++ rest) :
    (first c cs).Plain ∧
      ∃ awaited', (first c cs).kind.pair awaited = some awaited' ∧ Reads awaited' rest out := by
  obtain ⟨m, hm, h⟩ := h
  have hspelled := spelled_first c cs
  have hne := first_text_ne_nil c cs
  rw [hsplit, run_append] at h
  by_cases hcomment : (Token.first c cs).kind = .comment
  · have hline := comment_follow hsplit hcomment
    rw [run_commentToken awaited (hcomment ▸ hspelled), Option.bind_some] at h
    -- what follows is read the same in code, since it starts with a line end
    refine ⟨⟨hspelled, hne, by simp [hcomment], fun hback => hback.2.2 hcomment⟩, awaited, ?_, ?_⟩
    · rw [hcomment]
      rfl
    · cases rest with
      | nil =>
        cases h
        exact ⟨.code, .inl rfl, rfl⟩
      | cons d rest =>
        refine ⟨m, hm, ?_⟩
        rw [← run_lineEnd awaited hline (List.cons_ne_nil d rest)]
        exact h
  · by_cases hopen : (Token.first c cs).kind = .unterminatedString
    · -- the text ends inside the string
      rw [run_openString awaited (hopen ▸ hspelled), Option.bind_some] at h
      rcases unterminated_follow hsplit hopen with rfl | rfl
      · cases h
        simp at hm
      · cases h
        simp at hm
    · rw [run_token awaited hspelled hcomment hopen] at h
      by_cases hback : '\\' ∈ (Token.first c cs).text ∧ (Token.first c cs).kind ≠ .string
      · -- a watch stops at a loose backslash
        rw [if_pos hback] at h
        cases h
      · rw [if_neg hback] at h
        refine ⟨⟨hspelled, hne, hopen, fun hloose => hback ⟨hloose.1, ?_⟩⟩, ?_⟩
        · intro hstring
          have hk := hloose.2.1
          rw [hstring] at hk
          cases hk
        · cases hpair : (Token.first c cs).kind.pair awaited with
          | none =>
            rw [hpair] at h
            cases h
          | some awaited' =>
            rw [hpair] at h
            exact ⟨awaited', rfl, m, hm, h⟩

/-- **What a watch `Reads` can be told from its tokens**: they are plain, and their kinds pair to
the same end. -/
theorem Reads.tokens {cs : List Char} {awaited rest : List Kind} (h : Reads awaited cs rest) :
    (∀ t ∈ scan cs, t.Plain) ∧ Kind.pairAll awaited ((scan cs).map kind) = some rest := by
  induction cs using scan_induction generalizing awaited with
  | nil =>
    obtain ⟨m, -, h⟩ := h
    cases h
    exact ⟨by simp, rfl⟩
  | cons c cs tail hsplit hscan ih =>
    obtain ⟨hplain, awaited', hpair, htail⟩ := h.first hsplit
    obtain ⟨hall, hpairs⟩ := ih htail
    rw [hscan]
    refine ⟨fun t ht => ?_, ?_⟩
    · rcases List.mem_cons.mp ht with rfl | ht
      · exact hplain
      · exact hall t ht
    · rw [List.map_cons, Kind.pairAll_cons, hpair]
      exact hpairs

/-! ### Reading trivia -/

theorem exists_run_blanks {cs : List Char} (h : ∀ c ∈ cs, Bare c ∧ c ≠ '\\') {m : Mode}
    (hm : m = .code ∨ m = .comment) (awaited : List Kind) :
    ∃ m', (m' = .code ∨ m' = .comment) ∧ run ⟨m, awaited⟩ cs = some ⟨m', awaited⟩ := by
  induction cs generalizing m with
  | nil => exact ⟨m, hm, rfl⟩
  | cons c cs ih =>
    obtain ⟨⟨hquote, hsemi, hglyph⟩, hback⟩ := h c (by simp)
    have hstep : ∃ m', (m' = .code ∨ m' = .comment) ∧
        step ⟨m, awaited⟩ c = some ⟨m', awaited⟩ := by
      rcases hm with rfl | rfl
      · exact ⟨.code, .inl rfl, by simp [step, hquote, hsemi, hback, hglyph]⟩
      · by_cases hc : c = '\r' ∨ c = '\n'
        · exact ⟨.code, .inl rfl, if_pos hc⟩
        · exact ⟨.comment, .inr rfl, if_neg hc⟩
    obtain ⟨m', hm', hstep⟩ := hstep
    rw [run_cons, hstep]
    exact ih (fun d hd => h d (by simp [hd])) hm'

/-- A watch that is in no string is in none wherever a token of trivia is cut. -/
theorem exists_run_take {k : Kind} {cs : List Char} (h : Spelled k cs) (hk : k.isTrivia) (n : Nat)
    {m : Mode} (hm : m = .code ∨ m = .comment) (awaited : List Kind) :
    ∃ m', (m' = .code ∨ m' = .comment) ∧ run ⟨m, awaited⟩ (cs.take n) = some ⟨m', awaited⟩ := by
  have hblanks : (∀ c ∈ cs, Bare c ∧ c ≠ '\\') → ∃ m', (m' = .code ∨ m' = .comment) ∧
      run ⟨m, awaited⟩ (cs.take n) = some ⟨m', awaited⟩ := fun hcs =>
    exists_run_blanks (fun c hc => hcs c (List.mem_of_mem_take hc)) hm awaited
  cases h with
  | whitespace hcs => exact hblanks fun c hc => bare_of_isSpacing (hcs c hc)
  | blank hc =>
    refine hblanks fun d hd => ?_
    rw [List.mem_singleton.mp hd]
    exact bare_of_isBlank hc
  | newline => exact hblanks fun c hc => bare_of_mem_lineEnd (by simp_all)
  | returnNewline => exact hblanks fun c hc => bare_of_mem_lineEnd hc
  | @comment cs hcs =>
    cases n with
    | zero => exact ⟨m, hm, rfl⟩
    | succ n =>
      -- the semicolon starts the comment, or stands in one
      refine ⟨.comment, .inr rfl, ?_⟩
      rw [List.take_succ_cons, run_cons]
      have hbody := run_comment awaited fun c hc => hcs c (List.mem_of_mem_take (i := n) hc)
      rcases hm with rfl | rfl
      · exact hbody
      · exact hbody
  | delimiter hc => cases k <;> cases hk <;> cases hc
  | _ => cases hk

theorem exists_run_trivia {ts : List Token} (h : ∀ t ∈ ts, t.Plain ∧ t.kind.isTrivia) (n : Nat)
    {m : Mode} (hm : m = .code ∨ m = .comment) (awaited : List Kind) :
    ∃ m', (m' = .code ∨ m' = .comment) ∧
      run ⟨m, awaited⟩ ((ts.flatMap text).take n) = some ⟨m', awaited⟩ := by
  induction ts generalizing n m with
  | nil =>
    rw [List.flatMap_nil, List.take_nil]
    exact ⟨m, hm, rfl⟩
  | cons t ts ih =>
    obtain ⟨hplain, htrivia⟩ := h t (by simp)
    obtain ⟨m', hm', hrun⟩ := exists_run_take hplain.spelled htrivia n hm awaited
    rw [List.flatMap_cons, List.take_append, run_append, hrun]
    exact ih (fun u hu => h u (by simp [hu])) _ hm'

/-! ### Replacing a part of a text -/

/-- A text that leaves a watch in the mode `m` as it is. -/
def Neutral (m : Mode) (cs : List Char) : Prop :=
  ∀ awaited, run ⟨m, awaited⟩ cs = some ⟨m, awaited⟩

theorem Neutral.nil (m : Mode) : Neutral m [] :=
  fun _ => rfl

theorem Neutral.append {m : Mode} {cs ds : List Char} (hcs : Neutral m cs) (hds : Neutral m ds) :
    Neutral m (cs ++ ds) := by
  intro awaited
  rw [run_append, hcs, Option.bind_some, hds]

theorem neutral_space : Neutral .code [' '] :=
  fun _ => rfl

/-- An empty pair of delimiters is `Neutral`, in a comment too. -/
theorem neutral_delimiters {k : Kind} (hk : k.isCollection) {m : Mode}
    (hm : m = .code ∨ m = .comment) : Neutral m (k.opening ++ k.closing) := by
  intro awaited
  rcases hm with rfl | rfl <;> cases k <;> cases hk <;> rfl

/-- Delimiters that match are `Neutral`, with anything between them that is. -/
theorem Neutral.delimit {k : Kind} (hk : k.isCollection) {cs : List Char} (h : Neutral .code cs) :
    Neutral .code (k.opening ++ (cs ++ k.closing)) := by
  have hpair : ∃ c, ∀ awaited, run ⟨.code, awaited⟩ k.opening = some ⟨.code, c :: awaited⟩ ∧
      run ⟨.code, c :: awaited⟩ k.closing = some ⟨.code, awaited⟩ := by
    cases k with
    | list => exact ⟨.rparen, fun awaited => ⟨rfl, rfl⟩⟩
    | vector => exact ⟨.rbracket, fun awaited => ⟨rfl, rfl⟩⟩
    | map => exact ⟨.rbrace, fun awaited => ⟨rfl, rfl⟩⟩
    | _ => cases hk
  intro awaited
  obtain ⟨c, hc⟩ := hpair
  rw [run_append, (hc awaited).1, Option.bind_some, run_append, h, Option.bind_some, (hc awaited).2]

/-- In a text that a watch `Reads`, a part that leaves it as it was may be replaced by another that
does. -/
theorem Reads.replace {awaited rest : List Kind} {before old new after : List Char} {w : Watch}
    (h : Reads awaited (before ++ (old ++ after)) rest)
    (hbefore : run ⟨.code, awaited⟩ before = some w) (hold : Neutral w.mode old)
    (hnew : Neutral w.mode new) : Reads awaited (before ++ (new ++ after)) rest := by
  obtain ⟨m, hm, h⟩ := h
  refine ⟨m, hm, ?_⟩
  rw [run_append, hbefore, Option.bind_some, run_append, hold w.awaited] at h
  rw [run_append, hbefore, Option.bind_some, run_append, hnew w.awaited]
  exact h

end Watch

end SexpEdit
