/-
Scanning loses nothing.

`Token.scan` cuts a text into tokens from left to right.  Each step takes a token that is a
non-empty prefix of what is left (`first_text_ne_nil`, `take_first`), so that

* `scan_text` — the texts of the tokens, one after another, are the text;
* `scan_text_ne_nil` — no token is empty;
* `tiles_scan` — the byte spans of the tokens follow one another from the start of the text to its
  end;
* `utf8Encode_extract_of_mem_spans` — the bytes of a token are the bytes of the text in its span.

Every fact about a whole scan is proved along `scan_induction`, which follows the loop one token at
a time.
-/
import SexpEdit.Token.Lexer

namespace SexpEdit

/-! ### Rules match inside the text -/

namespace Text

theorem bodyLength_le (cs : List Char) : bodyLength cs ≤ cs.length := by
  fun_induction bodyLength cs with
  | case1 => exact Nat.le_refl 0
  | case2 c cs ih =>
    simp only [List.length_cons]
    omega
  | case3 c cs hne hstop => exact Nat.zero_le _
  | case4 c cs hne hstop ih =>
    simp only [List.length_cons]
    omega

theorem length_takeWhile_le (p : Char → Bool) (cs : List Char) :
    (cs.takeWhile p).length ≤ cs.length :=
  (List.takeWhile_prefix p).length_le

theorem stringLength_le (cs : List Char) : stringLength cs ≤ cs.length := by
  fun_cases stringLength cs with
  | case1 cs n hquote =>
    obtain ⟨hn, -⟩ := List.getElem?_eq_some_iff.mp hquote
    simp only [List.length_cons]
    omega
  | case2 => exact Nat.zero_le _
  | case3 => exact Nat.zero_le _

theorem prefixLength_le (cs : List Char) : prefixLength cs ≤ cs.length := by
  fun_cases prefixLength cs <;> simp

theorem charLength_le (cs : List Char) : charLength cs ≤ cs.length := by
  fun_cases charLength cs with
  | case1 => exact Nat.zero_le _
  | case2 c cs hc =>
    have h := length_takeWhile_le Char.isAlphanum cs
    simp only [List.length_cons]
    omega
  | case3 => exact Nat.zero_le _

end Text

open Text

theorem Kind.matchLength_le (k : Kind) (cs : List Char) : k.matchLength cs ≤ cs.length := by
  have hsingle : ∀ d, singleLength d cs ≤ cs.length := by
    intro d
    fun_cases singleLength d cs <;> simp
  cases k with
  | whitespace => exact length_takeWhile_le _ cs
  | newline =>
    show newlineLength cs ≤ cs.length
    fun_cases newlineLength cs <;> simp
  | comment =>
    show commentLength cs ≤ cs.length
    fun_cases commentLength cs with
    | case1 cs =>
      have h := length_takeWhile_le (fun c => c != '\r' && c != '\n') cs
      simp only [List.length_cons]
      omega
    | case2 => exact Nat.zero_le _
  | string => exact stringLength_le cs
  | unterminatedString =>
    show openStringLength cs ≤ cs.length
    fun_cases openStringLength cs with
    | case1 cs =>
      have h := bodyLength_le cs
      simp only [List.length_cons]
      omega
    | case2 => exact Nat.zero_le _
  | char => exact charLength_le cs
  | readerPrefix => exact prefixLength_le cs
  | symbol =>
    show symbolLength cs ≤ cs.length
    fun_cases symbolLength cs with
    | case1 c cs hc =>
      have h := length_takeWhile_le (fun d => !endsSymbol d) cs
      simp only [List.length_cons]
      omega
    | case2 => exact Nat.zero_le _
    | case3 => exact Nat.zero_le _
  | lparen | rparen | lbracket | rbracket | lbrace | rbrace => exact hsingle _
  | _ => exact Nat.zero_le _

/-- The winner of a round of `longest` is the one to beat, or a kind that beats it with its own
match. -/
theorem Kind.longest_eq (cs : List Char) : ∀ (kinds : List Kind) (best : Kind × Nat),
    longest cs best kinds = best ∨
      ∃ k ∈ kinds, longest cs best kinds = (k, k.matchLength cs) ∧ best.2 < k.matchLength cs := by
  intro kinds
  induction kinds with
  | nil =>
    intro best
    exact .inl rfl
  | cons k kinds ih =>
    intro best
    rw [longest]
    by_cases hk : best.2 < k.matchLength cs
    · -- from here on `k` is the one to beat
      rw [if_pos hk]
      rcases ih (k, k.matchLength cs) with h | ⟨k', hk', h, hlt⟩
      · exact .inr ⟨k, by simp, h, hk⟩
      · exact .inr ⟨k', by simp [hk'], h, Nat.lt_trans hk hlt⟩
    · rw [if_neg hk]
      rcases ih best with h | ⟨k', hk', h, hlt⟩
      · exact .inl h
      · exact .inr ⟨k', by simp [hk'], h, hlt⟩

/-- No kind has a greater `matchLength` than the winner of a round. -/
theorem Kind.le_longest (cs : List Char) : ∀ (kinds : List Kind) (best : Kind × Nat),
    best.2 ≤ (longest cs best kinds).2 ∧
      ∀ k ∈ kinds, k.matchLength cs ≤ (longest cs best kinds).2 := by
  intro kinds
  induction kinds with
  | nil =>
    intro best
    exact ⟨Nat.le_refl _, by simp⟩
  | cons k kinds ih =>
    intro best
    rw [longest]
    by_cases hk : best.2 < k.matchLength cs
    · obtain ⟨hbest, hrest⟩ := ih (k, k.matchLength cs)
      rw [if_pos hk]
      refine ⟨Nat.le_trans (Nat.le_of_lt hk) hbest, fun k' hk' => ?_⟩
      rcases List.mem_cons.mp hk' with rfl | hk'
      · exact hbest
      · exact hrest k' hk'
    · obtain ⟨hbest, hrest⟩ := ih best
      rw [if_neg hk]
      refine ⟨hbest, fun k' hk' => ?_⟩
      rcases List.mem_cons.mp hk' with rfl | hk'
      · exact Nat.le_trans (Nat.le_of_not_lt hk) hbest
      · exact hrest k' hk'

namespace Token

/-! ### One token -/

/-- The `first` token is a longest match, or a lone character on which no rule starts. -/
theorem first_eq (c : Char) (cs : List Char) :
    (first c cs = lone c ∧ ∀ k ∈ Kind.scanned, k.matchLength (c :: cs) = 0) ∨
      ∃ k ∈ Kind.scanned, 0 < k.matchLength (c :: cs) ∧
        (∀ k' ∈ Kind.scanned, k'.matchLength (c :: cs) ≤ k.matchLength (c :: cs)) ∧
        first c cs = ⟨k, (c :: cs).take (k.matchLength (c :: cs))⟩ := by
  obtain ⟨-, hle⟩ := Kind.le_longest (c :: cs) Kind.scanned (.symbol, 0)
  rcases Kind.longest_eq (c :: cs) Kind.scanned (.symbol, 0) with h | ⟨k, hk, h, hpos⟩
  · -- nothing beat a match of no characters, so no rule matches at all
    rw [h] at hle
    refine .inl ⟨?_, fun k hk => Nat.le_zero.mp (hle k hk)⟩
    unfold first
    rw [h]
    rfl
  · rw [h] at hle
    refine .inr ⟨k, hk, hpos, hle, ?_⟩
    obtain ⟨n, hn⟩ := Nat.exists_eq_add_one.mpr hpos
    unfold first
    rw [h, hn]
    rfl

theorem first_text_ne_nil (c : Char) (cs : List Char) : (first c cs).text ≠ [] := by
  rcases first_eq c cs with ⟨h, -⟩ | ⟨k, -, hpos, -, h⟩
  · rw [h]
    exact List.cons_ne_nil c []
  · rw [h]
    obtain ⟨n, hn⟩ := Nat.exists_eq_add_one.mpr hpos
    rw [hn]
    exact List.cons_ne_nil c _

theorem length_first_pos (c : Char) (cs : List Char) : 0 < (first c cs).text.length :=
  List.length_pos_iff.mpr (first_text_ne_nil c cs)

/-- The `first` token is a prefix of the text. -/
theorem take_first (c : Char) (cs : List Char) :
    (c :: cs).take (first c cs).text.length = (first c cs).text := by
  rcases first_eq c cs with ⟨h, -⟩ | ⟨k, -, -, -, h⟩
  · rw [h]
    rfl
  · rw [h, List.length_take, Nat.min_eq_left (Kind.matchLength_le k _)]

/-! ### The loop -/

theorem scanAfter_eq : ∀ (n : Nat) (cs : List Char), scanAfter n cs = scan (cs.drop n)
  | 0, _ => rfl
  | n + 1, [] => by
    rw [List.drop_nil]
    rfl
  | n + 1, c :: cs => by
    rw [scanAfter, scanAfter_eq n cs, List.drop_succ_cons]

@[simp] theorem scan_nil : scan [] = [] :=
  rfl

/-- A `scan` takes the `first` token and goes on with what is left. -/
theorem scan_cons (c : Char) (cs : List Char) :
    scan (c :: cs) = first c cs :: scan ((c :: cs).drop (first c cs).text.length) := by
  obtain ⟨n, hn⟩ := Nat.exists_eq_add_one.mpr (length_first_pos c cs)
  rw [scan, scanAfter, scanAfter_eq]
  simp only [hn, Nat.add_sub_cancel, List.drop_succ_cons]

/-- To prove a property of every text and its tokens, follow the `scan`: nothing is left, or a
`first` token and the tokens of the rest. -/
theorem scan_induction {motive : List Char → Prop} (nil : motive [])
    (cons : ∀ c cs rest, c :: cs = (first c cs).text ++ rest →
      scan (c :: cs) = first c cs :: scan rest → motive rest → motive (c :: cs))
    (cs : List Char) : motive cs := by
  induction hn : cs.length using Nat.strongRecOn generalizing cs with
  | ind n ih =>
    match cs with
    | [] => exact nil
    | c :: cs =>
      refine cons c cs _ ?_ (scan_cons c cs) (ih _ ?_ _ rfl)
      · have h := List.take_append_drop (first c cs).text.length (c :: cs)
        rw [take_first] at h
        exact h.symm
      · -- the first token is not empty, so the rest is shorter
        have hpos := length_first_pos c cs
        rw [List.length_drop]
        simp only [List.length_cons] at hn ⊢
        omega

/-- **Scanning is lossless**: the texts of the tokens of a `scan` make up the text. -/
theorem scan_text (cs : List Char) : (scan cs).flatMap text = cs := by
  induction cs using scan_induction with
  | nil => rfl
  | cons c cs rest hsplit hscan ih => rw [hscan, List.flatMap_cons, ih, hsplit]

theorem scan_text_ne_nil {cs : List Char} {t : Token} (ht : t ∈ scan cs) : t.text ≠ [] := by
  induction cs using scan_induction with
  | nil => exact absurd ht List.not_mem_nil
  | cons c cs rest hsplit hscan ih =>
    rw [hscan] at ht
    rcases List.mem_cons.mp ht with rfl | ht
    · exact first_text_ne_nil c cs
    · exact ih ht

end Token

/-! ### Byte spans -/

namespace Text

@[simp] theorem byteLength_append (cs ds : List Char) :
    byteLength (cs ++ ds) = byteLength cs + byteLength ds := by
  induction cs with
  | nil => simp [byteLength]
  | cons c cs ih => rw [List.cons_append, byteLength, ih, byteLength, Nat.add_assoc]

/-- `byteLength` counts the bytes of the encoded text. -/
theorem size_utf8Encode (cs : List Char) : cs.utf8Encode.size = byteLength cs := by
  induction cs with
  | nil => rfl
  | cons c cs ih =>
    rw [List.utf8Encode_cons, ByteArray.size_append, ih, List.utf8Encode_singleton]
    simp [byteLength]

theorem byteLength_pos {cs : List Char} (h : cs ≠ []) : 0 < byteLength cs := by
  obtain ⟨c, cs, rfl⟩ := List.exists_cons_of_ne_nil h
  have hc := c.utf8Size_pos
  simp only [byteLength]
  omega

/-- Spans that are not empty and follow one another from `start` to `stop`, without gap or
overlap. -/
def Tiles (start stop : Nat) : List (Nat × Nat) → Prop
  | [] => start = stop
  | (a, b) :: spans => a = start ∧ a < b ∧ Tiles b stop spans

end Text

namespace Token

theorem tiles_spansFrom : ∀ (ts : List Token) (start : Nat), (∀ t ∈ ts, t.text ≠ []) →
    Tiles start (start + byteLength (ts.flatMap text)) ((spansFrom start ts).map Prod.snd) := by
  intro ts
  induction ts with
  | nil =>
    intro start _
    rfl
  | cons t ts ih =>
    intro start hne
    have hpos := byteLength_pos (hne t (by simp))
    have hrest := ih (start + byteLength t.text) fun u hu => hne u (by simp [hu])
    refine ⟨rfl, Nat.lt_add_of_pos_right hpos, ?_⟩
    rw [List.flatMap_cons, byteLength_append, ← Nat.add_assoc]
    exact hrest

/-- The spans of a scan cover the text from its start to its end, by `Tiles`. -/
theorem tiles_scan (cs : List Char) :
    Tiles 0 (byteLength cs) ((spansFrom 0 (scan cs)).map Prod.snd) := by
  have h := tiles_spansFrom (scan cs) 0 fun t ht => scan_text_ne_nil ht
  rw [scan_text, Nat.zero_add] at h
  exact h

@[simp] theorem map_fst_spansFrom (start : Nat) (ts : List Token) :
    (spansFrom start ts).map Prod.fst = ts := by
  induction ts generalizing start with
  | nil => rfl
  | cons t ts ih => rw [spansFrom, List.map_cons, ih]

/-- The bytes of a token in place, when the text `pre` stands before the first token. -/
theorem utf8Encode_extract_of_mem_spansFrom {ts : List Token} {pre : List Char} {t : Token}
    {a b : Nat} (h : (t, a, b) ∈ spansFrom (byteLength pre) ts) :
    (pre ++ ts.flatMap text).utf8Encode.extract a b = t.text.utf8Encode := by
  induction ts generalizing pre with
  | nil => exact absurd h List.not_mem_nil
  | cons u ts ih =>
    rw [List.flatMap_cons, ← List.append_assoc]
    rcases List.mem_cons.mp h with h | h
    · -- the first token: its bytes come right after those of `pre`
      have hspan : t = u ∧ a = byteLength pre ∧ b = byteLength pre + byteLength u.text := by
        simpa using h
      obtain ⟨rfl, rfl, rfl⟩ := hspan
      rw [List.utf8Encode_append, List.utf8Encode_append, ByteArray.append_assoc]
      rw [← size_utf8Encode pre, ← size_utf8Encode t.text]
      have h := @ByteArray.extract_append_size_add pre.utf8Encode
        (t.text.utf8Encode ++ (ts.flatMap text).utf8Encode) 0 t.text.utf8Encode.size
      rw [Nat.add_zero, ByteArray.extract_append_eq_left rfl] at h
      exact h
    · -- a later one: the first token joins what stands before
      refine ih ?_
      rw [byteLength_append]
      exact h

/-- The bytes of a token are those of the text in its span. -/
theorem utf8Encode_extract_of_mem_spans {cs : List Char} {t : Token} {a b : Nat}
    (h : (t, a, b) ∈ spansFrom 0 (scan cs)) :
    cs.utf8Encode.extract a b = t.text.utf8Encode := by
  have h := @utf8Encode_extract_of_mem_spansFrom (scan cs) [] t a b h
  rwa [List.nil_append, scan_text] at h

end Token

end SexpEdit
