/-
Tokens at a seam.

When a delimiter is taken away, the text before it meets the text behind it.  An atom or a delimiter
stays what it is there, if the next character ends a symbol.  Blanks on both sides may run together
and be cut in other places than before: a carriage return is a blank, but it is part of the line end
before a line feed.  They make trivia all the same.

* `scan_ended` — a row of tokens that ends with an atom or a delimiter stays;
* `Text.Idle` — text of blanks and of comments with the ends of their lines;
* `scan_idle` — idle text is scanned into trivia, whatever comes before it.
-/
import SexpEdit.Proofs.Boundary
import SexpEdit.Proofs.Modes

namespace SexpEdit

open Text

namespace Text

/-- Blanks; a comma counts as one. -/
def isIdle (c : Char) : Bool :=
  isBlank c || c == ','

/-- Blanks, and comments with the ends of their lines. -/
inductive Idle : List Char → Prop
  | nil : Idle []
  | blank {c : Char} {cs : List Char} : isIdle c → Idle cs → Idle (c :: cs)
  | comment {body cs : List Char} : (∀ d ∈ body, d ≠ '\r' ∧ d ≠ '\n') → cs ≠ [] →
      StartsLineEnd cs → Idle cs → Idle (';' :: (body ++ cs))

theorem isIdle_of_isSpacing {c : Char} (h : isSpacing c) : isIdle c := by
  simp only [isSpacing, Bool.or_eq_true, beq_iff_eq] at h
  rcases h with ((rfl | rfl) | rfl) | rfl <;> decide

theorem endsSymbol_of_isIdle {c : Char} (h : isIdle c) : endsSymbol c := by
  rw [isIdle, Bool.or_eq_true, beq_iff_eq] at h
  rcases h with h | rfl
  · simp [endsSymbol, h]
  · decide

theorem Idle.blanks_append {ws cs : List Char} (hws : ∀ c ∈ ws, isIdle c) (h : Idle cs) :
    Idle (ws ++ cs) := by
  induction ws with
  | nil => exact h
  | cons c ws ih => exact .blank (hws c (by simp)) (ih fun d hd => hws d (by simp [hd]))

theorem Idle.append {xs ys : List Char} (hx : Idle xs) (hy : Idle ys) : Idle (xs ++ ys) := by
  induction hx with
  | nil => exact hy
  | blank hc _ ih => exact .blank hc ih
  | @comment body cs hbody hne hline _ ih =>
    rw [List.cons_append, List.append_assoc]
    refine .comment hbody (by simp [hne]) ?_ ih
    cases cs with
    | nil => exact absurd rfl hne
    | cons d cs => exact hline

theorem Idle.endsSymbol_of_head? {cs : List Char} (h : Idle cs) {d : Char}
    (hd : cs.head? = some d) : endsSymbol d := by
  cases h with
  | nil => cases hd
  | blank hc =>
    rw [← Option.some.inj hd]
    exact endsSymbol_of_isIdle hc
  | comment =>
    rw [← Option.some.inj hd]
    decide

/-- What is left of an `Idle` text when blanks are taken away in front is `Idle`. -/
theorem Idle.of_blanks_append {ws cs : List Char} (hws : ∀ c ∈ ws, isIdle c)
    (h : Idle (ws ++ cs)) : Idle cs := by
  induction ws with
  | nil => exact h
  | cons c ws ih =>
    have hc := hws c (by simp)
    rw [List.cons_append] at h
    generalize hcs : c :: (ws ++ cs) = text at h
    cases h with
    | nil => cases hcs
    | blank _ hrest =>
      obtain ⟨-, rfl⟩ := List.cons.inj hcs
      exact ih (fun d hd => hws d (by simp [hd])) hrest
    | comment =>
      obtain ⟨rfl, -⟩ := List.cons.inj hcs
      exact absurd hc (by decide)

/-- A run of characters that pass, cut off where one comes that does not, is that run. -/
theorem eq_of_append_eq {p : Char → Bool} {es ds rest y : List Char} (heq : es ++ rest = ds ++ y)
    (hle : ds.length ≤ es.length) (hes : ∀ d ∈ es, p d = true)
    (hy : ∀ d, y.head? = some d → p d = false) : es = ds := by
  rcases List.append_eq_append_iff.mp heq with ⟨m, rfl, -⟩ | ⟨m, rfl, rfl⟩
  · rw [List.length_append] at hle
    have hm : m = [] := List.length_eq_zero_iff.mp (by omega)
    rw [hm, List.append_nil]
  · cases m with
    | nil => exact List.append_nil ds
    | cons d m =>
      have hpass := hes d (by simp)
      rw [hy d rfl] at hpass
      cases hpass

end Text

namespace Token

/-! ### An atom or a delimiter before a character that ends a symbol -/

theorem Spelled.symbol_of_startsSymbol {k : Kind} {c : Char} {cs : List Char}
    (h : Spelled k (c :: cs)) (hc : startsSymbol c) :
    k = .symbol ∧ ∀ d ∈ cs, endsSymbol d = false := by
  cases h with
  | whitespace hall =>
    have hends := endsSymbol_of_isIdle (isIdle_of_isSpacing (hall c (by simp)))
    rw [startsSymbol, hends] at hc
    cases hc
  | blank hblank => simp [startsSymbol, endsSymbol, hblank] at hc
  | delimiter hk =>
    rw [startsSymbol, endsSymbol_of_isBracket (isBracket_of_glyph? hk)] at hc
    cases hc
  | readerPrefix hcs =>
    have hall : prefixes.all fun cs => !cs.head?.any startsSymbol := by decide
    have hhead := List.all_eq_true.mp hall _ hcs
    simp [hc] at hhead
  | symbol _ hcs => exact ⟨rfl, hcs⟩
  | newline | returnNewline | comment | string | unterminatedString | char | backslash =>
    exact absurd hc (by decide)

theorem Spelled.char_of_backslash {k : Kind} {c : Char} {cs : List Char}
    (h : Spelled k ('\\' :: c :: cs)) : k = .char ∧ ∀ d ∈ cs, d.isAlphanum := by
  cases h with
  | whitespace hall => exact absurd (hall '\\' (by simp)) (by decide)
  | char _ hcs => exact ⟨rfl, hcs⟩
  | readerPrefix hcs =>
    have hall : prefixes.all fun cs => cs.head? != some '\\' := by decide
    have hhead := List.all_eq_true.mp hall _ hcs
    simp at hhead
  | symbol hc => exact absurd hc (by decide)

/-- The `first` token of a text, known by where it ends. -/
theorem exists_first_split (c : Char) (cs : List Char) :
    ∃ es rest, (first c cs).text = c :: es ∧ es ++ rest = cs := by
  obtain ⟨es, hes⟩ := exists_first_text_eq c cs
  refine ⟨es, (c :: cs).drop (first c cs).text.length, hes, ?_⟩
  have hsplit := List.take_append_drop (first c cs).text.length (c :: cs)
  rw [take_first, hes, List.cons_append] at hsplit
  rw [hes]
  exact (List.cons.inj hsplit).2

theorem scan_of_text {c : Char} {ds y : List Char} {k : Kind}
    (htext : (first c (ds ++ y)).text = c :: ds) (hk : (first c (ds ++ y)).kind = k) :
    scan (c :: (ds ++ y)) = ⟨k, c :: ds⟩ :: scan y := by
  have hfirst : first c (ds ++ y) = ⟨k, c :: ds⟩ := by rw [← htext, ← hk]
  exact scan_of_first hfirst rfl

/-- A symbol goes on to a character that `endsSymbol`. -/
theorem scan_symbol {c : Char} {ds y : List Char} (hc : startsSymbol c)
    (hds : ∀ d ∈ ds, endsSymbol d = false) (hy : ∀ d, y.head? = some d → endsSymbol d) :
    scan (c :: (ds ++ y)) = ⟨.symbol, c :: ds⟩ :: scan y := by
  obtain ⟨es, rest, hes, hrest⟩ := exists_first_split c (ds ++ y)
  have hspelled := spelled_first c (ds ++ y)
  have hlength := matchLength_le_length_first c (ds ++ y) .symbol (by decide)
  rw [hes] at hspelled hlength
  obtain ⟨hkind, hall⟩ := hspelled.symbol_of_startsSymbol hc
  have hle : ds.length ≤ es.length := by
    rw [Kind.matchLength, symbolLength, if_pos hc,
      List.takeWhile_append_of_pos (fun d hd => by simp [hds d hd])] at hlength
    simp only [List.length_append, List.length_cons] at hlength
    omega
  have heq : es = ds := eq_of_append_eq (p := fun d => !endsSymbol d) hrest hle
    (fun d hd => by simp [hall d hd]) (fun d hd => by simp [hy d hd])
  rw [heq] at hes
  exact scan_of_text hes hkind

/-- A character literal goes on over letters and digits. -/
theorem scan_char {c : Char} {ds y : List Char} (hc : c ≠ '\n') (hds : ∀ d ∈ ds, d.isAlphanum)
    (hy : ∀ d, y.head? = some d → d.isAlphanum = false) :
    scan ('\\' :: (c :: ds ++ y)) = ⟨.char, '\\' :: c :: ds⟩ :: scan y := by
  obtain ⟨es, rest, hes, hrest⟩ := exists_first_split '\\' (c :: ds ++ y)
  have hspelled := spelled_first '\\' (c :: ds ++ y)
  have hlength := matchLength_le_length_first '\\' (c :: ds ++ y) .char (by decide)
  rw [hes] at hspelled hlength
  rw [List.cons_append, Kind.matchLength, charLength, if_neg (by simpa using hc),
    List.takeWhile_append_of_pos hds] at hlength
  simp only [List.length_append, List.length_cons] at hlength
  cases es with
  | nil =>
    rw [List.length_nil] at hlength
    omega
  | cons e es =>
    rw [List.cons_append, List.cons_append] at hrest
    obtain ⟨rfl, htail⟩ := List.cons.inj hrest
    obtain ⟨hkind, hall⟩ := hspelled.char_of_backslash
    rw [List.length_cons] at hlength
    have heq : es = ds := eq_of_append_eq htail (by omega) hall hy
    rw [heq] at hes
    exact scan_of_text hes hkind

/-- An atom or a delimiter stays before any character that `endsSymbol`. -/
theorem scan_ended_token {t : Token} {y : List Char} (hspelled : Spelled t.kind t.text)
    (hk : t.kind.isAtomic ∨ t.kind.glyph?.isSome)
    (hterm : t.kind ≠ .unterminatedString ∧ t ≠ backslash)
    (hy : ∀ d, y.head? = some d → endsSymbol d) : scan (t.text ++ y) = t :: scan y := by
  obtain ⟨k, cs⟩ := t
  dsimp only at hspelled hk hterm ⊢
  cases hspelled with
  | whitespace | blank | newline | returnNewline | comment | readerPrefix =>
    rcases hk with hk | hk <;> cases hk
  | delimiter hc => exact scan_glyph hc y
  | @string body hbody =>
    have hstring := first_string hbody y
    rw [List.cons_append, List.append_assoc]
    exact scan_of_first hstring (by simp)
  | unterminatedString => exact absurd rfl hterm.1
  | char hc hcs =>
    refine scan_char hc hcs fun d hd => ?_
    refine Bool.eq_false_iff.mpr fun halnum => ?_
    have hends := hy d hd
    rw [endsSymbol_of_isAlphanum halnum] at hends
    cases hends
  | symbol hc hcs => exact scan_symbol hc hcs hy
  | backslash => exact absurd rfl hterm.2

/-- **A row of tokens that ends with an atom or a delimiter stays before any character that
`endsSymbol`.** -/
theorem scan_ended {ts us : List Token} {x y : List Char}
    (hscan : scan (ts.flatMap text ++ x) = ts ++ us)
    (hterm : ∀ t ∈ ts, t.kind ≠ .unterminatedString ∧ t ≠ backslash)
    (hlast : ∀ t, ts.getLast? = some t → t.kind.isAtomic ∨ t.kind.glyph?.isSome)
    (hy : ∀ d, y.head? = some d → endsSymbol d) :
    scan x = us ∧ scan (ts.flatMap text ++ y) = ts ++ scan y := by
  rcases List.eq_nil_or_concat' ts with rfl | ⟨ts, t, rfl⟩
  · exact ⟨hscan, rfl⟩
  · have hspelled : Spelled t.kind t.text := spelled_of_mem_scan (by rw [hscan]; simp)
    have hlast := hlast t (List.getLast?_concat ..)
    have htoken := scan_ended_token hspelled hlast (hterm t (by simp)) hy
    have hne : t.text ≠ [] := scan_text_ne_nil (by rw [hscan]; simp)
    obtain ⟨c, ds, hcs⟩ := List.exists_cons_of_ne_nil hne
    have hhead : (t.text ++ y).head? = (t.text ++ x).head? := by simp [hcs]
    simp only [List.flatMap_append, List.flatMap_singleton, List.append_assoc] at hscan ⊢
    obtain ⟨hx, hy⟩ := scan_relieved hscan (.inl hhead) (fun u hu => (hterm u (by simp [hu])).1)
      fun _ _ _ => hhead
    refine ⟨?_, by rw [hy, htoken]; rfl⟩
    obtain ⟨c', ds', rest, hsplit, htext, -, hrest⟩ := exists_of_scan_eq_cons hx
    rw [htext, List.cons_append] at hsplit
    rw [List.append_cancel_left (List.cons.inj hsplit).2]
    exact hrest

/-! ### Idle text -/

/-- The tokens of trivia before another token make `Idle` text: the line of each comment ends. -/
theorem idle_of_scan {cs : List Char} {ts us : List Token} {u : Token} :
    ∀ {ls : List Token}, scan cs = ls ++ (ts ++ u :: us) → (∀ t ∈ ts, t.kind.isTrivia) →
      u.kind.isTrivia = false → Idle (ts.flatMap text) := by
  induction ts with
  | nil =>
    intro ls _ _ _
    exact .nil
  | cons t ts ih =>
    intro ls hscan htrivia hu
    have hmem : ∀ v ∈ t :: ts ++ u :: us, Spelled v.kind v.text := fun v hv =>
      spelled_of_mem_scan (by rw [hscan]; exact List.mem_append_right _ hv)
    have hrest : Idle (ts.flatMap text) := by
      have hsplit : scan cs = (ls ++ [t]) ++ (ts ++ u :: us) := by
        rw [hscan]
        simp
      exact ih hsplit (fun v hv => htrivia v (by simp [hv])) hu
    have hspelled := hmem t (by simp)
    have hkind := htrivia t (by simp)
    rw [List.flatMap_cons]
    generalize htext : t.text = ds at hspelled
    generalize hk : t.kind = k at hspelled hkind
    cases hspelled with
    | whitespace hall => exact hrest.blanks_append fun c hc => isIdle_of_isSpacing (hall c hc)
    | @blank c hc => exact .blank (by rw [isIdle, hc]; rfl) hrest
    | newline => exact .blank (by decide) hrest
    | returnNewline => exact .blank (by decide) (.blank (by decide) hrest)
    | @comment body hbody =>
      -- a line end comes after the comment, so another token of trivia does
      have hchain := isChain_scan cs
      rw [hscan] at hchain
      have hchain := (List.isChain_append.mp hchain).2.1
      cases ts with
      | nil =>
        have hfollows : Follows t u := (List.isChain_cons_cons.mp hchain).1
        exact absurd (hfollows hk) ((hmem u (by simp)).not_startsLineEnd hu)
      | cons v ts =>
        have hfollows : Follows t v := (List.isChain_cons_cons.mp hchain).1
        have hline := hfollows hk
        have hne : v.text ≠ [] := scan_text_ne_nil (by rw [hscan]; simp)
        obtain ⟨c, es, hes⟩ := List.exists_cons_of_ne_nil hne
        refine .comment hbody (by simp [hes]) ?_ hrest
        rw [List.flatMap_cons, hes]
        rw [hes] at hline
        exact hline
    | delimiter hc => cases k <;> cases hc <;> cases hkind
    | string | unterminatedString | char | readerPrefix | symbol | backslash => cases hkind

/-- A token that starts with a character that `isIdle` is trivia, and blank all through. -/
theorem Spelled.isTrivia_of_isIdle {k : Kind} {c : Char} {cs : List Char} (h : Spelled k (c :: cs))
    (hc : isIdle c) : k.isTrivia ∧ ∀ d ∈ c :: cs, isIdle d := by
  have hends := endsSymbol_of_isIdle hc
  cases h with
  | whitespace hall => exact ⟨rfl, fun d hd => isIdle_of_isSpacing (hall d hd)⟩
  | blank => exact ⟨rfl, by simpa using hc⟩
  | newline => exact ⟨rfl, List.forall_mem_singleton.mpr (by decide)⟩
  | returnNewline =>
    exact ⟨rfl, List.forall_mem_cons.mpr ⟨by decide, List.forall_mem_singleton.mpr (by decide)⟩⟩
  | delimiter hk =>
    rcases isBracket_cases (isBracket_of_glyph? hk) with rfl | rfl | rfl | rfl | rfl | rfl <;>
      exact absurd hc (by decide)
  | readerPrefix hcs =>
    have hall : prefixes.all fun cs => !cs.head?.any isIdle := by decide
    have hhead := List.all_eq_true.mp hall _ hcs
    simp [hc] at hhead
  | symbol hstarts =>
    rw [startsSymbol, hends] at hstarts
    cases hstarts
  | comment | string | unterminatedString | char | backslash => exact absurd hc (by decide)

/-- A token that is no trivia does not start with a character that `isIdle`. -/
theorem Spelled.not_isIdle {k : Kind} {c : Char} {cs : List Char} (h : Spelled k (c :: cs))
    (hk : k.isTrivia = false) : isIdle c = false := by
  refine Bool.eq_false_iff.mpr fun hc => ?_
  have htrivia := (h.isTrivia_of_isIdle hc).1
  rw [hk] at htrivia
  cases htrivia

/-- A comment goes on to the end of its line. -/
theorem scan_comment {body cs : List Char} (hbody : ∀ d ∈ body, d ≠ '\r' ∧ d ≠ '\n')
    (hcs : StartsLineEnd cs) : scan (';' :: (body ++ cs)) = ⟨.comment, ';' :: body⟩ :: scan cs := by
  obtain ⟨es, rest, hes, hrest⟩ := exists_first_split ';' (body ++ cs)
  have hspelled := spelled_first ';' (body ++ cs)
  have hlength := matchLength_le_length_first ';' (body ++ cs) .comment (by decide)
  rw [hes] at hspelled hlength
  have hkind := hspelled.kind_of_semicolon
  have hall : ∀ d ∈ es, d ≠ '\r' ∧ d ≠ '\n' := by
    rw [hkind] at hspelled
    cases hspelled with
    | comment hall => exact hall
    | delimiter hc => cases hc
  have hle : body.length ≤ es.length := by
    rw [Kind.matchLength, commentLength,
      List.takeWhile_append_of_pos (fun d hd => by simpa using hbody d hd)] at hlength
    simp only [List.length_append, List.length_cons] at hlength
    omega
  have heq : es = body := by
    refine eq_of_append_eq (p := fun d => d != '\r' && d != '\n') hrest hle
      (fun d hd => by simpa using hall d hd) fun d hd => ?_
    cases cs with
    | nil => cases hd
    | cons e cs =>
      obtain rfl := Option.some.inj hd
      rcases hcs with rfl | rfl <;> decide
  rw [heq] at hes
  exact scan_of_text hes hkind

/-- **Text that is `Idle` is scanned into trivia**, if no blank comes after it. -/
theorem scan_idle {z : List Char} (hz : ∀ c, z.head? = some c → isIdle c = false) :
    ∀ (n : Nat) {x : List Char}, x.length ≤ n → Idle x →
      ∃ ts, scan (x ++ z) = ts ++ scan z ∧ (∀ t ∈ ts, t.kind.isTrivia) ∧ ts.flatMap text = x := by
  intro n
  induction n with
  | zero =>
    intro x hn _
    rw [List.length_eq_zero_iff.mp (Nat.le_zero.mp hn)]
    exact ⟨[], rfl, by simp, rfl⟩
  | succ n ih =>
    intro x hn hx
    -- it is enough to take one token of trivia off the front
    have hstep : ∀ {t : Token} {w y : List Char}, x = w ++ y → w ≠ [] → t.text = w →
        scan (x ++ z) = t :: scan (y ++ z) → t.kind.isTrivia → Idle y →
        ∃ ts, scan (x ++ z) = ts ++ scan z ∧ (∀ t ∈ ts, t.kind.isTrivia) ∧
          ts.flatMap text = x := by
      intro t w y hxy hw htext hscan ht hy
      have hlt : y.length ≤ n := by
        have hpos := List.length_pos_of_ne_nil hw
        rw [hxy, List.length_append] at hn
        omega
      obtain ⟨ts, hts, htrivia, hflat⟩ := ih hlt hy
      refine ⟨t :: ts, by rw [hscan, hts]; rfl, List.forall_mem_cons.mpr ⟨ht, htrivia⟩, ?_⟩
      rw [List.flatMap_cons, htext, hflat, hxy]
    cases hx with
    | nil => exact ⟨[], rfl, by simp, rfl⟩
    | @blank c cs hc hcs =>
      obtain ⟨es, rest, hes, hrest⟩ := exists_first_split c (cs ++ z)
      have hspelled := spelled_first c (cs ++ z)
      rw [hes] at hspelled
      obtain ⟨htrivia, hall⟩ := hspelled.isTrivia_of_isIdle hc
      -- the token is blank all through, so it ends before `z`
      obtain ⟨m, rfl, rfl⟩ : ∃ m, cs = es ++ m ∧ rest = m ++ z := by
        rcases List.append_eq_append_iff.mp hrest with ⟨m, hm, hm'⟩ | ⟨m, hm, hm'⟩
        · exact ⟨m, hm, hm'⟩
        · cases m with
          | nil => exact ⟨[], by simpa using hm.symm, by simpa using hm'.symm⟩
          | cons d m =>
            have hd := hall d (by simp [hm])
            rw [hz d (by rw [hm']; rfl)] at hd
            cases hd
      refine hstep (w := c :: es) (y := m) rfl (by simp) hes ?_ htrivia
        (hcs.of_blanks_append fun d hd => hall d (by simp [hd]))
      rw [List.cons_append]
      exact scan_of_first rfl (by rw [hes]; simp)
    | @comment body cs hbody hne hline hcs =>
      have hstarts : StartsLineEnd (cs ++ z) := by
        cases cs with
        | nil => exact absurd rfl hne
        | cons d cs => exact hline
      refine hstep (t := ⟨.comment, ';' :: body⟩) (y := cs) rfl (by simp) rfl ?_ rfl hcs
      rw [List.cons_append, List.append_assoc]
      exact scan_comment hbody hstarts

end Token

end SexpEdit
