/-
The scan takes longest matches.

The rule of a token kind is a language, written as a regular expression.  A scan knows the rules by
lengths only, one function for each rule, and compares those.  Here the rules stand on their own, and
the lengths are those of the longest prefixes in the rules.

* `Kind.rule` — the texts that the rule of a kind matches;
* `Kind.matches_rule` — `Kind.matchLength` is the length of the longest match;
* `Kind.rule_disjoint` — no two rules match the same text;
* `Token.scan_takes_longest_match` — every token is the longest match of all rules, or a character
  where no rule matches.
-/
import Mathlib.Computability.Language
import SexpEdit.Proofs.LineStart

namespace SexpEdit

open scoped Computability

/-! ### Rules -/

namespace Text

/-- The words of one character of the class `p`. -/
def oneChar (p : Char → Prop) : Language Char :=
  {w | ∃ c, p c ∧ w = [c]}

/-- What stands between the quotes of a string: characters other than quotes and backslashes, and
backslashes with any character after each. -/
def bodies : Language Char :=
  (oneChar (· ∉ ['"', '\\']) + oneChar (· = '\\') * oneChar fun _ => True)∗

/-- Blanks inside a line. -/
def spacings : List Char :=
  [' ', '\t', '\r', ',']

/-- The characters that are in no symbol, apart from blanks. -/
def separators : List Char :=
  [',', '(', ')', '[', ']', '\x7b', '\x7d', '"', ';']

/-- The characters that start no symbol, apart from those that are in none. -/
def markers : List Char :=
  ['\'', '\x60', '~', '@', '^', '\\', '#']

end Text

open Text

/-- The texts that the rule of a token kind matches. -/
def Kind.rule : Kind → Language Char
  | whitespace => oneChar (· ∈ spacings) * (oneChar (· ∈ spacings))∗
  | newline => (1 + oneChar (· = '\r')) * oneChar (· = '\n')
  | comment => oneChar (· = ';') * (oneChar (· ∉ ['\r', '\n']))∗
  | lparen => oneChar (· = '(')
  | rparen => oneChar (· = ')')
  | lbracket => oneChar (· = '[')
  | rbracket => oneChar (· = ']')
  | lbrace => oneChar (· = '\x7b')
  | rbrace => oneChar (· = '\x7d')
  | string => oneChar (· = '"') * (bodies * oneChar (· = '"'))
  | unterminatedString => oneChar (· = '"') * bodies
  | char =>
    oneChar (· = '\\') * (oneChar (· ≠ '\n') * (oneChar fun c =>
      ('a' ≤ c ∧ c ≤ 'z') ∨ ('A' ≤ c ∧ c ≤ 'Z') ∨ ('0' ≤ c ∧ c ≤ '9'))∗)
  | readerPrefix =>
    oneChar (· = '~') * oneChar (· = '@') +
      oneChar (· = '#') * (oneChar (· = '?') * oneChar (· = '@')) +
      oneChar (· = '#') * (1 + oneChar (· ∈ ['_', '\'', '?'])) +
      oneChar (· ∈ ['\'', '\x60', '~', '@', '^'])
  | symbol =>
    oneChar (fun c => ¬isBlank c ∧ c ∉ separators ∧ c ∉ markers) *
      (oneChar fun c => ¬isBlank c ∧ c ∉ separators)∗
  | _ => 0

namespace Text

variable {p : Char → Prop} {L : Language Char} {w : List Char}

theorem mem_oneChar_mul : w ∈ oneChar p * L ↔ ∃ c u, p c ∧ u ∈ L ∧ w = c :: u := by
  rw [Language.mem_mul]
  constructor
  · rintro ⟨-, ⟨c, hc, rfl⟩, u, hu, rfl⟩
    exact ⟨c, u, hc, hu, rfl⟩
  · rintro ⟨c, u, hc, hu, rfl⟩
    exact ⟨[c], ⟨c, hc, rfl⟩, u, hu, rfl⟩

theorem append_mem_kstar {u : List Char} (hu : u ∈ L) (hw : w ∈ L∗) : u ++ w ∈ L∗ :=
  Set.mem_of_mem_of_subset (Language.append_mem_mul hu hw) (mul_kstar_le_kstar (a := L))

/-- The runs of a class of characters. -/
theorem mem_run : w ∈ (oneChar p)∗ ↔ ∀ c ∈ w, p c := by
  constructor
  · intro h c hc
    obtain ⟨ws, rfl, hws⟩ := Language.mem_kstar.mp h
    obtain ⟨u, hu, hcu⟩ := List.mem_flatten.mp hc
    obtain ⟨d, hd, rfl⟩ := hws u hu
    rwa [List.mem_singleton.mp hcu]
  · intro h
    induction w with
    | nil => exact Language.nil_mem_kstar _
    | cons c w ih =>
      obtain ⟨hc, hw⟩ := List.forall_mem_cons.mp h
      exact append_mem_kstar (u := [c]) ⟨c, hc, rfl⟩ (ih hw)

theorem mem_bodies : w ∈ bodies ↔ Body w := by
  constructor
  · intro h
    obtain ⟨ws, rfl, hws⟩ := Language.mem_kstar.mp h
    clear h
    induction ws with
    | nil => exact .nil
    | cons u ws ih =>
      obtain ⟨hu, hrest⟩ := List.forall_mem_cons.mp hws
      rcases hu with ⟨c, hc, rfl⟩ | hu
      · rw [List.mem_cons, List.mem_singleton, not_or] at hc
        exact .plain hc.1 hc.2 (ih hrest)
      · obtain ⟨-, -, rfl, ⟨c, -, rfl⟩, rfl⟩ := mem_oneChar_mul.mp hu
        exact .escape (ih hrest)
  · intro h
    induction h with
    | nil => exact Language.nil_mem_kstar _
    | @plain c cs hquote hback _ ih =>
      have hc : c ∉ ['"', '\\'] := by simp [hquote, hback]
      exact append_mem_kstar (u := [c]) (.inl ⟨c, hc, rfl⟩) ih
    | @escape c cs _ ih =>
      have hpair : ['\\', c] ∈ oneChar (· = '\\') * oneChar fun _ => True :=
        mem_oneChar_mul.mpr ⟨'\\', [c], rfl, ⟨c, trivial, rfl⟩, rfl⟩
      exact append_mem_kstar (u := ['\\', c]) (.inr hpair) ih

/-! ### Longest matches -/

/-- The first `n` characters of a text are a word of a language, and no longer prefix is. -/
structure Longest (L : Language Char) (cs : List Char) (n : Nat) : Prop where
  mem : cs.take n ∈ L
  le : ∀ u ∈ L, u <+: cs → u.length ≤ n

/-- No prefix of `cs` is a word of `L`. -/
def Unmatched (L : Language Char) (cs : List Char) : Prop :=
  ∀ u ∈ L, ¬u <+: cs

/-- The longest prefix of a text in a language has `n` characters; zero stands for none. -/
def Matches (L : Language Char) (cs : List Char) (n : Nat) : Prop :=
  Longest L cs n ∨ Unmatched L cs ∧ n = 0

variable {c : Char} {cs : List Char} {n : Nat}

theorem Longest.cons (hc : p c) (h : Longest L cs n) :
    Longest (oneChar p * L) (c :: cs) (n + 1) where
  mem := by
    rw [List.take_succ_cons]
    exact mem_oneChar_mul.mpr ⟨c, _, hc, h.mem, rfl⟩
  le := by
    intro w hw hpre
    obtain ⟨d, u, -, hu, rfl⟩ := mem_oneChar_mul.mp hw
    obtain ⟨-, hrest⟩ := List.cons_prefix_cons.mp hpre
    exact Nat.succ_le_succ (h.le u hu hrest)

theorem Unmatched.cons (h : p c → Unmatched L cs) : Unmatched (oneChar p * L) (c :: cs) := by
  intro w hw hpre
  obtain ⟨d, u, hd, hu, rfl⟩ := mem_oneChar_mul.mp hw
  obtain ⟨rfl, hrest⟩ := List.cons_prefix_cons.mp hpre
  exact h hd u hu hrest

theorem longest_nil : Longest 1 cs 0 where
  mem := rfl
  le := by
    rintro u rfl -
    exact Nat.le_refl 0

/-- A character of the class `p` and then a language `L` that matches wherever it starts. -/
theorem matches_cons {f : Char → Bool} (hf : f c ↔ p c) (h : Longest L cs n) :
    Matches (oneChar p * L) (c :: cs) (if f c then n + 1 else 0) := by
  by_cases hc : f c
  · rw [if_pos hc]
    exact .inl (h.cons (hf.mp hc))
  · rw [if_neg hc]
    exact .inr ⟨.cons fun h => absurd (hf.mpr h) hc, rfl⟩

/-- The character `d` and then such a language. -/
theorem matches_literal {d : Char} (h : Longest L cs n) :
    Matches (oneChar (· = d) * L) (c :: cs) (if c == d then n + 1 else 0) :=
  matches_cons (p := (· = d)) (f := (· == d)) beq_iff_eq h

/-- The `Longest` run of a class. -/
theorem longest_run {f : Char → Bool} (hf : ∀ c, f c ↔ p c) (cs : List Char) :
    Longest (oneChar p)∗ cs (cs.takeWhile f).length where
  mem := by
    rw [take_length_takeWhile, mem_run]
    intro c hc
    exact (hf c).mp (of_mem_takeWhile hc)
  le := by
    rintro u hu ⟨rest, rfl⟩
    rw [mem_run] at hu
    rw [List.takeWhile_append_of_pos fun c hc => (hf c).mpr (hu c hc), List.length_append]
    exact Nat.le_add_right _ _

/-- The `Longest` body of a string has the `bodyLength`. -/
theorem longest_bodies (cs : List Char) : Longest bodies cs (bodyLength cs) where
  mem := mem_bodies.mpr (body_take cs)
  le := by
    rintro u hu ⟨rest, rfl⟩
    rw [bodyLength_append (mem_bodies.mp hu)]
    exact Nat.le_add_right _ _

/-! ### Classes of characters -/

theorem isSpacing_iff (c : Char) : isSpacing c ↔ c ∈ spacings := by
  simp [isSpacing, spacings, or_assoc]

theorem not_endsSymbol_iff (c : Char) : !endsSymbol c ↔ ¬isBlank c ∧ c ∉ separators := by
  simp [endsSymbol, separators, and_assoc]

theorem startsSymbol_iff (c : Char) :
    startsSymbol c ↔ ¬isBlank c ∧ c ∉ separators ∧ c ∉ markers := by
  rw [startsSymbol, Bool.and_eq_true, not_endsSymbol_iff, and_assoc]
  simp [isMarker, markers, and_assoc]

theorem isAlphanum_iff (c : Char) : c.isAlphanum ↔
    ('a' ≤ c ∧ c ≤ 'z') ∨ ('A' ≤ c ∧ c ≤ 'Z') ∨ ('0' ≤ c ∧ c ≤ '9') := by
  change ((decide ('A'.val ≤ c.val ∧ c.val ≤ 'Z'.val) ||
    (decide ('a'.val ≤ c.val) && decide (c.val ≤ 'z'.val))) ||
    (decide ('0'.val ≤ c.val) && decide (c.val ≤ '9'.val))) = true ↔ _
  simp only [Bool.or_eq_true, Bool.and_eq_true, decide_eq_true_eq]
  rw [or_assoc, or_left_comm]
  exact Iff.rfl

/-! ### The lengths of the rules -/

theorem matches_single (d c : Char) (cs : List Char) :
    Matches (oneChar (· = d)) (c :: cs) (singleLength d (c :: cs)) := by
  rw [← mul_one (oneChar _)]
  exact matches_literal longest_nil

theorem matches_newline (c : Char) (cs : List Char) :
    Matches Kind.newline.rule (c :: cs) (newlineLength (c :: cs)) := by
  have hmem : ∀ {w : List Char}, w ∈ Kind.newline.rule ↔ w = ['\n'] ∨ w = ['\r', '\n'] := by
    intro w
    rw [Kind.rule, add_mul, one_mul, Language.mem_add, mem_oneChar_mul]
    constructor
    · rintro (⟨_, rfl, rfl⟩ | ⟨_, _, rfl, ⟨_, rfl, rfl⟩, rfl⟩)
      · exact .inl rfl
      · exact .inr rfl
    · rintro (rfl | rfl)
      · exact .inl ⟨_, rfl, rfl⟩
      · exact .inr ⟨_, _, rfl, ⟨_, rfl, rfl⟩, rfl⟩
  generalize c :: cs = text
  fun_cases newlineLength text with
  | case1 cs =>
    refine .inl ⟨hmem.mpr (.inl rfl), ?_⟩
    rintro u hu hpre
    rcases hmem.mp hu with rfl | rfl
    · exact Nat.le_refl 1
    · simp at hpre
  | case2 cs =>
    refine .inl ⟨hmem.mpr (.inr rfl), ?_⟩
    rintro u hu hpre
    rcases hmem.mp hu with rfl | rfl
    · simp at hpre
    · exact Nat.le_refl 2
  | case3 text hfeed hreturn =>
    refine .inr ⟨?_, rfl⟩
    rintro u hu ⟨rest, rfl⟩
    rcases hmem.mp hu with rfl | rfl
    · exact hfeed rest rfl
    · exact hreturn rest rfl

theorem matches_comment (c : Char) (cs : List Char) :
    Matches Kind.comment.rule (c :: cs) (commentLength (c :: cs)) := by
  have hrun : ∀ d : Char, (d != '\r' && d != '\n') ↔ d ∉ ['\r', '\n'] := by
    intro d
    simp
  have hlength : commentLength (c :: cs) =
      if c == ';' then (cs.takeWhile fun d => d != '\r' && d != '\n').length + 1 else 0 := by
    by_cases hc : c = ';'
    · subst hc
      rfl
    · rw [if_neg (by simpa using hc)]
      simp [commentLength, hc]
  rw [hlength]
  exact matches_literal (longest_run hrun cs)

theorem matches_char (c : Char) (cs : List Char) :
    Matches Kind.char.rule (c :: cs) (charLength (c :: cs)) := by
  generalize htext : c :: cs = text
  fun_cases charLength text with
  | case1 d cs hd =>
    refine .inr ⟨.cons fun _ => .cons fun hne => ?_, rfl⟩
    exact absurd (beq_iff_eq.mp hd) hne
  | case2 d cs hd =>
    have hne : d ≠ '\n' := by simpa using hd
    have hrest := Longest.cons (p := (· ≠ '\n')) hne (longest_run isAlphanum_iff cs)
    exact .inl (hrest.cons rfl)
  | case3 text hnot =>
    -- every match has a backslash and a character behind it
    refine .inr ⟨?_, rfl⟩
    rintro u hu ⟨rest, rfl⟩
    obtain ⟨_, v, rfl, hv, rfl⟩ := mem_oneChar_mul.mp hu
    obtain ⟨d, v, -, -, rfl⟩ := mem_oneChar_mul.mp hv
    exact hnot d _ rfl

theorem matches_string (c : Char) (cs : List Char) :
    Matches Kind.string.rule (c :: cs) (stringLength (c :: cs)) := by
  by_cases hc : c = '"'
  · subst hc
    -- a body with a quote behind it is the longest body there is
    have hquote : ∀ u ∈ bodies * oneChar (· = '"'), u <+: cs →
        u.length = bodyLength cs + 1 ∧ cs[bodyLength cs]? = some '"' := by
      rintro u hu ⟨rest, rfl⟩
      obtain ⟨b, hb, -, ⟨_, rfl, rfl⟩, rfl⟩ := Language.mem_mul.mp hu
      have hlength : bodyLength (b ++ ['"'] ++ rest) = b.length := by
        rw [List.append_assoc]
        exact bodyLength_append_quote (mem_bodies.mp hb) rest
      rw [hlength, List.append_assoc, List.length_append]
      refine ⟨rfl, ?_⟩
      rw [List.getElem?_append_right (Nat.le_refl _), Nat.sub_self]
      rfl
    rw [stringLength]
    by_cases hend : cs[bodyLength cs]? = some '"'
    · rw [if_pos hend]
      refine .inl (Longest.cons rfl ⟨?_, fun u hu hpre => (hquote u hu hpre).1.le⟩)
      have hsplit : cs.take (bodyLength cs + 1) = cs.take (bodyLength cs) ++ ['"'] := by
        rw [List.take_add_one, hend]
        rfl
      rw [hsplit]
      exact Language.append_mem_mul (longest_bodies cs).mem ⟨_, rfl, rfl⟩
    · rw [if_neg hend]
      exact .inr ⟨.cons fun _ u hu hpre => hend (hquote u hu hpre).2, rfl⟩
  · have hzero : stringLength (c :: cs) = 0 := by simp [stringLength, hc]
    rw [hzero]
    exact .inr ⟨.cons fun h => absurd h hc, rfl⟩

theorem matches_openString (c : Char) (cs : List Char) :
    Matches Kind.unterminatedString.rule (c :: cs) (openStringLength (c :: cs)) := by
  have hlength : openStringLength (c :: cs) = if c == '"' then bodyLength cs + 1 else 0 := by
    by_cases hc : c = '"'
    · subst hc
      rfl
    · simp [openStringLength, hc]
  rw [hlength]
  exact matches_literal (longest_bodies cs)

theorem mem_readerPrefix_rule : w ∈ Kind.readerPrefix.rule ↔ w ∈ prefixes := by
  constructor
  · rintro (((h | h) | h) | ⟨c, hc, rfl⟩)
    · obtain ⟨_, _, rfl, ⟨_, rfl, rfl⟩, rfl⟩ := mem_oneChar_mul.mp h
      decide
    · obtain ⟨_, u, rfl, hu, rfl⟩ := mem_oneChar_mul.mp h
      obtain ⟨_, _, rfl, ⟨_, rfl, rfl⟩, rfl⟩ := mem_oneChar_mul.mp hu
      decide
    · obtain ⟨_, u, rfl, rfl | ⟨c, hc, rfl⟩, rfl⟩ := mem_oneChar_mul.mp h
      · decide
      · simp only [List.mem_cons, List.not_mem_nil, or_false] at hc
        rcases hc with rfl | rfl | rfl <;> decide
    · simp only [List.mem_cons, List.not_mem_nil, or_false] at hc
      rcases hc with rfl | rfl | rfl | rfl | rfl <;> decide
  · intro h
    have hmark : ∀ c ∈ ['_', '\'', '?'], ['#', c] ∈ Kind.readerPrefix.rule := fun c hc =>
      .inl (.inr (mem_oneChar_mul.mpr ⟨'#', [c], rfl, .inr ⟨c, hc, rfl⟩, rfl⟩))
    have hone : ∀ c ∈ ['\'', '\x60', '~', '@', '^'], [c] ∈ Kind.readerPrefix.rule := fun c hc =>
      .inr ⟨c, hc, rfl⟩
    simp only [prefixes, List.mem_cons, List.not_mem_nil, or_false] at h
    rcases h with rfl | rfl | rfl | rfl | rfl | rfl | rfl | rfl | rfl | rfl | rfl
    · exact .inl (.inl (.inl (mem_oneChar_mul.mpr ⟨'~', ['@'], rfl, ⟨'@', rfl, rfl⟩, rfl⟩)))
    · have hrest : ['?', '@'] ∈ oneChar (· = '?') * oneChar (· = '@') :=
        mem_oneChar_mul.mpr ⟨'?', ['@'], rfl, ⟨'@', rfl, rfl⟩, rfl⟩
      exact .inl (.inl (.inr (mem_oneChar_mul.mpr ⟨'#', _, rfl, hrest, rfl⟩)))
    · exact hmark '_' (by decide)
    · exact hmark '\'' (by decide)
    · exact hmark '?' (by decide)
    · exact .inl (.inr (mem_oneChar_mul.mpr ⟨'#', [], rfl, .inl rfl, rfl⟩))
    · exact hone '\'' (by decide)
    · exact hone '\x60' (by decide)
    · exact hone '~' (by decide)
    · exact hone '@' (by decide)
    · exact hone '^' (by decide)

theorem length_le_prefixLength {u : List Char} (hu : u ∈ prefixes) (hpre : u <+: cs) :
    u.length ≤ prefixLength cs := by
  obtain ⟨rest, rfl⟩ := hpre
  simp only [prefixes, List.mem_cons, List.not_mem_nil, or_false] at hu
  rcases hu with rfl | rfl | rfl | rfl | rfl | rfl | rfl | rfl | rfl | rfl | rfl
  · simp [prefixLength]
  · simp [prefixLength]
  · simp [prefixLength]
  · simp [prefixLength]
  · -- an at sign behind the question mark makes the match longer
    cases rest with
    | nil => decide
    | cons d rest =>
      by_cases hd : d = '@'
      · subst hd
        simp [prefixLength]
      · simp [prefixLength, hd]
  all_goals exact Token.prefixLength_pos (by decide) (by decide) rest

theorem matches_readerPrefix (c : Char) (cs : List Char) :
    Matches Kind.readerPrefix.rule (c :: cs) (prefixLength (c :: cs)) := by
  have hle : ∀ u ∈ Kind.readerPrefix.rule, u <+: c :: cs → u.length ≤ prefixLength (c :: cs) :=
    fun u hu => length_le_prefixLength (mem_readerPrefix_rule.mp hu)
  by_cases hpos : 0 < prefixLength (c :: cs)
  · exact .inl ⟨mem_readerPrefix_rule.mpr (take_prefixLength hpos), hle⟩
  · refine .inr ⟨?_, Nat.eq_zero_of_not_pos hpos⟩
    intro u hu hpre
    have hlength := hle u hu hpre
    obtain rfl : u = [] := List.length_eq_zero_iff.mp (by omega)
    exact absurd (mem_readerPrefix_rule.mp hu) (by decide)

end Text

namespace Kind

/-- The `matchLength` that a scan finds for a kind is that of the longest prefix in its `rule`. -/
theorem matches_rule (k : Kind) (c : Char) (cs : List Char) :
    Matches k.rule (c :: cs) (k.matchLength (c :: cs)) := by
  cases k with
  | whitespace =>
    have hlength : ((c :: cs).takeWhile isSpacing).length =
        if isSpacing c then (cs.takeWhile isSpacing).length + 1 else 0 := by
      rw [List.takeWhile_cons]
      split <;> rfl
    rw [matchLength, hlength]
    exact matches_cons (isSpacing_iff c) (longest_run isSpacing_iff cs)
  | newline => exact matches_newline c cs
  | comment => exact matches_comment c cs
  | lparen | rparen | lbracket | rbracket | lbrace | rbrace => exact matches_single _ c cs
  | string => exact matches_string c cs
  | unterminatedString => exact matches_openString c cs
  | char => exact matches_char c cs
  | readerPrefix => exact matches_readerPrefix c cs
  | symbol => exact matches_cons (startsSymbol_iff c) (longest_run not_endsSymbol_iff cs)
  | eof | root | list | vector | map | atom | prefixed | error =>
    exact .inr ⟨fun u hu => absurd hu (Set.notMem_empty u), rfl⟩

theorem mem_scanned_of_mem_rule {k : Kind} {w : List Char} (h : w ∈ k.rule) : k ∈ scanned := by
  cases k with
  | eof | root | list | vector | map | atom | prefixed | error =>
    exact absurd h (Set.notMem_empty w)
  | _ => decide

/-- No `rule` matches a longer prefix than the `matchLength` found for it. -/
theorem length_le_matchLength {k : Kind} {w cs : List Char} (hw : w ∈ k.rule) (hpre : w <+: cs) :
    w.length ≤ k.matchLength cs := by
  cases cs with
  | nil =>
    rw [List.prefix_nil.mp hpre]
    exact Nat.zero_le _
  | cons c cs =>
    rcases k.matches_rule c cs with hlongest | ⟨hnone, -⟩
    · exact hlongest.le w hw hpre
    · exact absurd hpre (hnone w hw)

/-! ### Rules do not overlap -/

/-- The characters that are in no symbol or do not start one, each with a kind whose rule starts with
it. -/
def leads : List (Char × Kind) :=
  [(' ', whitespace), ('\t', whitespace), ('\r', whitespace), (',', whitespace), ('\n', newline),
    (';', comment), ('(', lparen), (')', rparen), ('[', lbracket), (']', rbracket),
    ('\x7b', lbrace), ('\x7d', rbrace), ('"', string), ('\\', char), ('\'', readerPrefix),
    ('\x60', readerPrefix), ('~', readerPrefix), ('@', readerPrefix), ('^', readerPrefix),
    ('#', readerPrefix)]

/-- The kind whose rule matches a text, if one does. -/
def ofWord : List Char → Kind
  | [] => eof
  | c :: cs =>
    match (leads.lookup c).getD symbol with
    | whitespace => if '\n' ∈ cs then newline else whitespace
    | string => if bodyLength cs = cs.length then unterminatedString else string
    | k => k

/-- The first character of a match tells the kind, but for the two kinds of strings and for carriage
returns. -/
theorem ofWord_of_mem_rule {k : Kind} {w : List Char} (h : w ∈ k.rule) : ofWord w = k := by
  cases k with
  | whitespace =>
    obtain ⟨c, u, hc, hu, rfl⟩ := mem_oneChar_mul.mp h
    have hlead : leads.lookup c = some whitespace := by
      simp only [spacings, List.mem_cons, List.not_mem_nil, or_false] at hc
      rcases hc with rfl | rfl | rfl | rfl <;> rfl
    have hfeed : '\n' ∉ u := by
      intro hmem
      exact absurd (mem_run.mp hu _ hmem) (by decide)
    rw [ofWord, hlead]
    exact if_neg hfeed
  | newline =>
    obtain ⟨a, ha, -, ⟨_, rfl, rfl⟩, rfl⟩ := Language.mem_mul.mp h
    rcases ha with rfl | ⟨_, rfl, rfl⟩ <;> rfl
  | comment | char =>
    obtain ⟨_, u, rfl, -, rfl⟩ := mem_oneChar_mul.mp h
    rfl
  | lparen | rparen | lbracket | rbracket | lbrace | rbrace =>
    obtain ⟨_, rfl, rfl⟩ := h
    rfl
  | string =>
    obtain ⟨_, u, rfl, hu, rfl⟩ := mem_oneChar_mul.mp h
    obtain ⟨b, hb, -, ⟨_, rfl, rfl⟩, rfl⟩ := Language.mem_mul.mp hu
    -- no body goes on over the closing quote
    have hlength := bodyLength_append_quote (mem_bodies.mp hb) []
    refine if_neg ?_
    rw [hlength, List.length_append, List.length_singleton]
    omega
  | unterminatedString =>
    obtain ⟨_, u, rfl, hu, rfl⟩ := mem_oneChar_mul.mp h
    have hlength := bodyLength_append (mem_bodies.mp hu) []
    rw [List.append_nil] at hlength
    exact if_pos hlength
  | readerPrefix =>
    have hall : ∀ u ∈ prefixes, ofWord u = readerPrefix := by decide
    exact hall w (mem_readerPrefix_rule.mp h)
  | symbol =>
    obtain ⟨c, u, ⟨hblank, hsep, hmark⟩, -, rfl⟩ := mem_oneChar_mul.mp h
    have hlead : leads.lookup c = none := by
      have hall : ∀ q ∈ leads, isBlank q.1 ∨ q.1 ∈ separators ∨ q.1 ∈ markers := by decide
      refine List.lookup_eq_none_iff.mpr fun q hq => bne_iff_ne.mpr ?_
      rintro rfl
      rcases hall q hq with hb | hs | hm
      · exact hblank hb
      · exact hsep hs
      · exact hmark hm
    rw [ofWord, hlead]
    rfl
  | eof | root | list | vector | map | atom | prefixed | error =>
    exact absurd h (Set.notMem_empty w)

/-- **Rules do not overlap**: no text is in the `rule` of two kinds. -/
theorem rule_disjoint {j k : Kind} {w : List Char} (hj : w ∈ j.rule) (hk : w ∈ k.rule) : j = k :=
  (ofWord_of_mem_rule hj).symm.trans (ofWord_of_mem_rule hk)

end Kind

namespace Token

/-! ### Tokens are longest matches -/

/-- The `first` token is the longest match, or a character where no rule matches. -/
theorem first_longest (c : Char) (cs : List Char) :
    ((first c cs).text ∈ (first c cs).kind.rule ∧
      ∀ k, ∀ w ∈ Kind.rule k, w <+: c :: cs → w.length ≤ (first c cs).text.length) ∨
    (first c cs = lone c ∧ ∀ k, ∀ w ∈ Kind.rule k, w <+: c :: cs → w = []) := by
  rcases first_eq c cs with ⟨hlone, hzero⟩ | ⟨k, -, hpos, hmax, heq⟩
  · refine .inr ⟨hlone, ?_⟩
    intro k w hw hpre
    have hle := Kind.length_le_matchLength hw hpre
    rw [hzero k (Kind.mem_scanned_of_mem_rule hw)] at hle
    exact List.length_eq_zero_iff.mp (Nat.le_zero.mp hle)
  · refine .inl ?_
    rw [heq]
    constructor
    · rcases k.matches_rule c cs with hlongest | ⟨-, hzero⟩
      · exact hlongest.mem
      · omega
    · intro j w hw hpre
      show w.length ≤ ((c :: cs).take (k.matchLength (c :: cs))).length
      rw [List.length_take, Nat.min_eq_left (Kind.matchLength_le k _)]
      exact (Kind.length_le_matchLength hw hpre).trans (hmax j (Kind.mem_scanned_of_mem_rule hw))

/-- A token of a `scan` is the `first` token of the text that is left where it starts. -/
theorem exists_first_of_scan {cs : List Char} {ts us : List Token} {t : Token}
    (h : scan cs = ts ++ t :: us) :
    ∃ c rest, cs.drop (widthOf ts) = c :: rest ∧ t = first c rest := by
  induction cs using scan_induction generalizing ts with
  | nil => simp at h
  | cons c cs rest hsplit hscan ih =>
    rw [hscan] at h
    cases ts with
    | nil => exact ⟨c, cs, rfl, (List.cons.inj h).1.symm⟩
    | cons u ts =>
      obtain ⟨rfl, hrest⟩ := List.cons.inj h
      obtain ⟨d, left, hleft, ht⟩ := ih hrest
      refine ⟨d, left, ?_, ht⟩
      rw [widthOf_cons, ← List.drop_drop, hsplit, List.drop_left, hleft]

/-- **The scan takes longest matches.**  Take a token and the text that is left where it starts.  If
some rule matches a prefix of that text with a character or more, then the rule of the token's kind,
and no other one, matches the token, and no rule matches a longer prefix.  Otherwise the token is one
character: whitespace if it is a blank and a symbol if not. -/
theorem scan_takes_longest_match {cs : List Char} {ts us : List Token} {t : Token}
    (h : scan cs = ts ++ t :: us) :
    ∃ c rest, cs.drop (widthOf ts) = c :: rest ∧ t.text <+: c :: rest ∧
      ((∃ k, ∃ w ∈ Kind.rule k, w ≠ [] ∧ w <+: c :: rest) →
        t.text ∈ t.kind.rule ∧ (∀ k, t.text ∈ Kind.rule k → k = t.kind) ∧
        ∀ k, ∀ w ∈ Kind.rule k, w <+: c :: rest → w.length ≤ t.text.length) ∧
      ((¬∃ k, ∃ w ∈ Kind.rule k, w ≠ [] ∧ w <+: c :: rest) →
        t.text = [c] ∧ t.kind = if isBlank c then .whitespace else .symbol) := by
  obtain ⟨c, rest, hrest, rfl⟩ := exists_first_of_scan h
  have hpre : (first c rest).text <+: c :: rest := by
    rw [← take_first c rest]
    exact List.take_prefix _ _
  refine ⟨c, rest, hrest, hpre, ?_, ?_⟩
  · rintro ⟨k, w, hw, hne, hpre⟩
    rcases first_longest c rest with ⟨hmem, hle⟩ | ⟨-, hnone⟩
    · exact ⟨hmem, fun k hk => Kind.rule_disjoint hk hmem, hle⟩
    · exact absurd (hnone k w hw hpre) hne
  · intro hnone
    rcases first_longest c rest with ⟨hmem, -⟩ | ⟨hlone, -⟩
    · exact absurd ⟨_, _, hmem, first_text_ne_nil c rest, hpre⟩ hnone
    · rw [hlone]
      exact ⟨rfl, rfl⟩

/-- Two carriage returns before a line feed are whitespace, and the line feed alone is the line end.
The rule of reader prefixes matches `#` and `#?` too, but the scan takes `#?@`.  A form feed is a blank
that no rule matches. -/
theorem scan_takes_longest_match_blank :
    let cs := "\r\r\n#?@\x0c".toList
    let ts : List Token := [⟨.whitespace, ['\r', '\r']⟩, ⟨.newline, ['\n']⟩]
    scan cs = ts ++ ⟨.readerPrefix, ['#', '?', '@']⟩ :: [⟨.whitespace, ['\x0c']⟩] ∧
    ['#'] ∈ Kind.readerPrefix.rule ∧ ['#', '?', '@'] ∈ Kind.readerPrefix.rule ∧
    (∀ k, ∀ w ∈ Kind.rule k, w <+: ['#', '?', '@', '\x0c'] → w.length ≤ 3) ∧
    ∀ k, ∀ w ∈ Kind.rule k, w <+: ['\x0c'] → w = [] := by
  intro cs ts
  have hscan : scan cs = ts ++ ⟨.readerPrefix, ['#', '?', '@']⟩ :: [⟨.whitespace, ['\x0c']⟩] := by
    decide +kernel
  have hlast : scan cs = (ts ++ [⟨.readerPrefix, ['#', '?', '@']⟩]) ++ [⟨.whitespace, ['\x0c']⟩] :=
    hscan
  have hone : ['#'] ∈ Kind.readerPrefix.rule := mem_readerPrefix_rule.mpr (by decide)
  refine ⟨hscan, hone, ?_⟩
  obtain ⟨c, rest, hrest, -, hmatch, -⟩ := scan_takes_longest_match hscan
  obtain ⟨d, rest', hrest', -, hmatch', -⟩ := scan_takes_longest_match hlast
  have hleft : cs.drop (widthOf ts) = ['#', '?', '@', '\x0c'] := by decide +kernel
  have hleft' : cs.drop (widthOf (ts ++ [⟨.readerPrefix, ['#', '?', '@']⟩])) = ['\x0c'] := by
    decide +kernel
  rw [hrest.symm.trans hleft] at hmatch
  rw [hrest'.symm.trans hleft'] at hmatch'
  obtain ⟨hmem, -, hle⟩ := hmatch ⟨_, _, hone, by decide, ⟨_, rfl⟩⟩
  refine ⟨hmem, hle, ?_⟩
  intro k w hw hpre
  by_contra hne
  -- a match would make the form feed a word of the rule of whitespace
  obtain ⟨hmem', -⟩ := hmatch' ⟨k, w, hw, hne, hpre⟩
  obtain ⟨e, u, he, -, heq⟩ := mem_oneChar_mul.mp hmem'
  rw [← (List.cons.inj heq).1] at he
  exact absurd he (by decide)

end Token

end SexpEdit
