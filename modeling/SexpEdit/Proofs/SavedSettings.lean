/-
Settings that are saved and loaded.

What is saved is a document with one pair for each setting and a table for the extensions.  It is
read entry by entry, and no setting is left to its default, so that an empty list of languages or an
empty table of extensions stays empty.  The log path is expanded when settings are loaded; a path
without tildes and dollar signs stays as it is.

The extensions are kept in the order of their keys, each key once.  Loading puts them in that order,
whatever order they are written in.

* `Settings.before_iff_lt`, `Settings.load_inOrder` — loaded extensions are in order;
* `Settings.read?_render` — the entries of a saved document;
* `Settings.ofEntries?_entries` — and the settings that they stand for;
* `Settings.load_restores_saved` — saved settings are loaded as they were.
-/
import Mathlib.Algebra.Group.Nat.Defs
import SexpEdit.Proofs.Entries
import SexpEdit.Settings.Load

namespace SexpEdit.Settings

open Toml

/-! ### Extensions in order -/

/-- The extensions are in the order of their keys, each key once. -/
def InOrder (s : Settings) : Prop :=
  (s.extensions.map Prod.fst).Pairwise (· < ·)

instance (s : Settings) : Decidable s.InOrder :=
  inferInstanceAs (Decidable (List.Pairwise _ _))

theorem before_iff_lt {as bs : List Char} : before as bs = true ↔ as < bs := by
  induction as generalizing bs with
  | nil =>
    cases bs with
    | nil => simp [before]
    | cons b bs => simp [before]
  | cons a as ih =>
    cases bs with
    | nil => simp [before]
    | cons b bs =>
      rw [before, List.cons_lt_cons_iff, ← ih]
      simp [Char.lt_def, UInt32.lt_iff_toNat_lt]

theorem addExtension_of_lt {key value : List Char} {es : List (List Char × List Char)}
    (h : ∀ k ∈ es.map Prod.fst, key < k) : addExtension key value es = (key, value) :: es := by
  cases es with
  | nil => rfl
  | cons e es =>
    rw [addExtension, if_pos (before_iff_lt.mpr (h e.1 List.mem_cons_self))]

/-- Extensions in order are put together by `extensions?` as they are. -/
theorem extensions?_of_pairwise {es : List (List Char × List Char)}
    (h : (es.map Prod.fst).Pairwise (· < ·)) :
    extensions? (es.map fun e => (e.1, .string e.2)) = some es := by
  induction es with
  | nil => rfl
  | cons e es ih =>
    rw [List.map_cons, List.pairwise_cons] at h
    rw [List.map_cons, extensions?, ih h.2, Option.map_some, addExtension_of_lt h.1]

theorem mem_keys_addExtension {key value k : List Char} {es : List (List Char × List Char)} :
    k ∈ (addExtension key value es).map Prod.fst → k = key ∨ k ∈ es.map Prod.fst := by
  induction es with
  | nil => simp [addExtension]
  | cons e es ih =>
    rw [addExtension]
    split
    · simp
    split
    · simp only [List.map_cons, List.mem_cons]
      rintro (rfl | h)
      · exact .inl rfl
      · exact .inr (.inr h)
    · simp only [List.map_cons, List.mem_cons]
      rintro (rfl | h)
      · exact .inr (.inl rfl)
      · exact (ih h).imp_right .inr

theorem pairwise_addExtension {key value : List Char} {es : List (List Char × List Char)}
    (h : (es.map Prod.fst).Pairwise (· < ·)) :
    ((addExtension key value es).map Prod.fst).Pairwise (· < ·) := by
  induction es with
  | nil => simp [addExtension]
  | cons e es ih =>
    rw [List.map_cons, List.pairwise_cons] at h
    rw [addExtension]
    split
    · next hbefore =>
      have hlt := before_iff_lt.mp hbefore
      refine .cons ?_ (.cons h.1 h.2)
      intro k hk
      rcases List.mem_cons.mp hk with rfl | hk
      · exact hlt
      · exact List.lt_trans hlt (h.1 k hk)
    split
    · next heq =>
      rw [List.map_cons, ← heq]
      exact .cons h.1 h.2
    · next hbefore hne =>
      -- neither before the first key nor equal to it, so the new key goes behind it
      have hge : ¬key < e.1 := fun hlt => hbefore (before_iff_lt.mpr hlt)
      have hlt : e.1 < key := Decidable.not_not.mp fun hle =>
        hne (List.le_antisymm (List.not_lt.mp hge) (List.not_lt.mp hle))
      refine .cons ?_ (ih h.2)
      intro k hk
      rcases mem_keys_addExtension hk with rfl | hk
      · exact hlt
      · exact h.1 k hk

theorem pairwise_of_extensions? {es : List Entry} : ∀ {extensions : List (List Char × List Char)},
    extensions? es = some extensions → (extensions.map Prod.fst).Pairwise (· < ·) := by
  induction es with
  | nil =>
    rintro extensions ⟨⟩
    exact .nil
  | cons e es ih =>
    intro extensions h
    obtain ⟨key, v⟩ := e
    cases v with
    | string value =>
      obtain ⟨rest, hrest, rfl⟩ := Option.map_eq_some_iff.mp h
      exact pairwise_addExtension (ih hrest)
    | _ => cases h

/-- Whatever settings are loaded, their extensions are `InOrder`. -/
theorem load_inOrder {home : List Char} {env : List Char → Option (List Char)} {source : Source}
    {s : Settings} (h : load home env source = .ok (some s)) : s.InOrder := by
  cases source with
  | missing => cases h
  | unreadable => cases h
  | text cs =>
    rw [load] at h
    cases hparse : parse? cs with
    | none =>
      rw [hparse] at h
      cases h
    | some loaded =>
      rw [hparse] at h
      obtain rfl := Option.some.inj (Except.ok.inj h)
      obtain ⟨es, -, hes⟩ := Option.bind_eq_some_iff.mp hparse
      simp only [ofEntries?, Option.bind_eq_bind, Option.bind_eq_some_iff] at hes
      obtain ⟨_, -, _, -, _, -, _, -, extensions, hextensions, _, -, hes⟩ := hes
      obtain rfl := Option.some.inj hes
      show (extensions.map Prod.fst).Pairwise (· < ·)
      rw [field?] at hextensions
      split at hextensions
      · -- without the table these are the default extensions
        obtain rfl := Option.some.inj hextensions
        decide
      · split at hextensions
        · exact pairwise_of_extensions? hextensions
        · cases hextensions

/-! ### What is saved -/

/-- The entries of settings but for the table of extensions. -/
def plainEntries (s : Settings) : List Entry :=
  [("enabled".toList, .boolean s.enabled),
    ("languages".toList, .array (s.languages.map .string)),
    ("default_key_map".toList, .string s.keyMap),
    ("indent_width".toList, .integer s.indentWidth)] ++
    s.logFile.toList.map fun path => ("log_file".toList, .string path)

/-- The entries of the extensions table, see `entries`. -/
def extensionEntries (es : List (List Char × List Char)) : List Entry :=
  es.map fun e => (e.1, .string e.2)

/-- The entries of `s` in the order in which they are saved. -/
def entries (s : Settings) : List Entry :=
  s.plainEntries ++ [("extensions".toList, .table .header (extensionEntries s.extensions))]

theorem readValue?_renderTexts (depth : Nat) (texts : List (List Char)) (rest : List Char) :
    readValue? (depth + 2) (renderTexts texts ++ rest) =
      some (.array (texts.map .string), rest) := by
  match texts with
  | [] =>
    show readValue? (depth + 2) ('[' :: (']' :: rest)) = _
    refine readValue?_array fun fuel h => ?_
    obtain ⟨fuel, rfl⟩ := Nat.exists_eq_add_one.mpr (Nat.zero_lt_of_lt h)
    exact readItems?_close (dropSpace?_of_isSolid rfl rest)
  | [s] =>
    have htext : renderTexts [s] ++ rest = '[' :: (renderString s ++ ']' :: rest) := by
      simp [renderTexts]
    rw [htext]
    refine readValue?_array fun fuel h => ?_
    obtain ⟨fuel, rfl⟩ := Nat.exists_eq_add_one.mpr (Nat.zero_lt_of_lt h)
    exact readItems?_single depth fuel s rest
  | s :: t :: texts =>
    have htext : renderTexts (s :: t :: texts) ++ rest =
        '[' :: (rows (s :: t :: texts) ++ ']' :: rest) := by
      simp [renderTexts, rows]
    rw [htext]
    refine readValue?_array fun fuel h => readItems?_rows depth rest ?_
    have hlength := length_lt_rows (s :: t :: texts)
    rw [List.length_append] at h
    omega

theorem exists_renderTexts (texts : List (List Char)) :
    ∃ c t, renderTexts texts = c :: t ∧ isSolid c = true := by
  match texts with
  | [] => exact ⟨'[', _, rfl, rfl⟩
  | [s] => exact ⟨'[', _, rfl, rfl⟩
  | s :: t :: texts => exact ⟨'[', _, rfl, rfl⟩

theorem exists_solid_renderString (cs : List Char) :
    ∃ c t, renderString cs = c :: t ∧ isSolid c = true := by
  obtain ⟨q, t, h, hq⟩ := exists_renderString cs
  exact ⟨q, t, h, (quote_ne_bracket hq).1⟩

theorem exists_solid_toDigits (n : Nat) :
    ∃ c t, Nat.toDigits 10 n = c :: t ∧ isSolid c = true := by
  obtain ⟨c, t, h⟩ := List.exists_cons_of_ne_nil (@Nat.toDigits_ne_nil n 10)
  have hdigit : c.isDigit = true := isDigit_of_mem_toDigits c (by rw [h]; exact List.mem_cons_self)
  exact ⟨c, t, h, isSolid_of_isBare (by simp [isBare, Char.isAlphanum, hdigit])⟩

/-- A line of a saved document. -/
theorem reads_line {path : List (List Char)} {es es' result : List Entry} (key : List Char)
    {name text rest : List Char} {v : Value} (hname : renderKey key = name)
    (htext : ∃ c t, text = c :: t ∧ isSolid c = true)
    (hvalue : readValue? maxDepth (text ++ '\n' :: rest) = some (v, '\n' :: rest))
    (hentry : inside? (define? v [key]) path es = some es') (h : Reads path es' rest result) :
    Reads path es (Settings.line name text ++ rest) result := by
  rw [Settings.line, List.append_assoc, List.singleton_append, ← hname]
  exact Reads.pair htext hvalue hentry h

theorem map_fst_extensionEntries (es : List (List Char × List Char)) :
    (extensionEntries es).map Prod.fst = es.map Prod.fst := by
  rw [extensionEntries, List.map_map]
  rfl

/-- The lines of the extensions fill the table that the header has started. -/
theorem reads_extensions {es : List Entry} (hname : "extensions".toList ∉ es.map Prod.fst)
    (extensions : List (List Char × List Char)) : ∀ {before : List (List Char × List Char)},
      ((before ++ extensions).map Prod.fst).Nodup →
      Reads ["extensions".toList]
        (es ++ [("extensions".toList, .table .header (extensionEntries before))])
        (extensions.flatMap fun (k, v) => line (renderKey k) (renderString v))
        (es ++
          [("extensions".toList, .table .header (extensionEntries (before ++ extensions)))]) := by
  induction extensions with
  | nil =>
    intro before _
    rw [List.append_nil]
    exact Reads.nil _ _
  -- on the lines still to be read; those before them are in the table already
  | cons e extensions ih =>
    intro before hnodup
    obtain ⟨key, value⟩ := e
    have hsplit : before ++ (key, value) :: extensions =
        before ++ [(key, value)] ++ extensions := by
      rw [List.append_assoc, List.singleton_append]
    have hkey : key ∉ (extensionEntries before).map Prod.fst := by
      rw [map_fst_extensionEntries]
      rw [List.map_append, List.nodup_append] at hnodup
      exact fun hmem => hnodup.2.2 key hmem key List.mem_cons_self rfl
    rw [List.flatMap_cons]
    refine reads_line key rfl (exists_solid_renderString value) (readValue?_renderString _ _ ?_)
      (inside?_last hname hkey _) ?_
    · exact unquoted_cons (by decide) (by decide) _
    · rw [hsplit] at hnodup ⊢
      have hadd : extensionEntries before ++ [(key, .string value)] =
          extensionEntries (before ++ [(key, value)]) := by
        simp [extensionEntries]
      rw [hadd]
      exact ih hnodup

theorem extensions_not_mem (s : Settings) :
    "extensions".toList ∉ s.plainEntries.map Prod.fst := by
  cases s.logFile with
  | none => simp [plainEntries]
  | some path => simp [plainEntries]

/-- The header and the lines behind it make the table of extensions. -/
theorem reads_table {s : Settings} (horder : s.InOrder) :
    Reads [] s.plainEntries ("\n[extensions]\n".toList ++
      s.extensions.flatMap fun (k, v) => line (renderKey k) (renderString v)) s.entries := by
  have hnodup : (s.extensions.map Prod.fst).Nodup := by
    refine horder.imp fun {k k'} hlt heq => ?_
    rw [heq] at hlt
    exact List.lt_irrefl _ hlt
  have hopen : openTable? "extensions".toList s.plainEntries =
      some (s.plainEntries ++ [("extensions".toList, .table .header (extensionEntries []))]) := by
    rw [openTable?, find?_eq_none_iff.mpr s.extensions_not_mem]
    rfl
  exact .feed (.header hopen (reads_extensions s.extensions_not_mem _ hnodup))

/-- **The entries of a saved document**: `read?` gives them back from `render`. -/
theorem read?_render {s : Settings} (horder : s.InOrder) : read? s.render = some s.entries := by
  have hmark : dropMark s.render = s.render := rfl
  have hunquoted : ∀ rest, Unquoted ('\n' :: rest) := unquoted_cons (by decide) (by decide)
  have htable := reads_table horder
  rw [read?, hmark]
  suffices h : Reads [] [] s.render s.entries from h _ (Nat.lt_succ_self _)
  -- line by line; each key is new, so that its entry goes to the end
  rw [render]
  simp only [List.append_assoc]
  refine reads_line "enabled".toList rfl ?_ (readValue?_boolean _ _ _)
    (define?_of_not_mem (by simp) _) ?_
  · cases s.enabled <;> exact ⟨_, _, rfl, rfl⟩
  refine reads_line "languages".toList rfl (exists_renderTexts _) (readValue?_renderTexts _ _ _)
    (define?_of_not_mem (by simp) _) ?_
  refine reads_line "default_key_map".toList rfl (exists_solid_renderString _)
    (readValue?_renderString _ _ (hunquoted _)) (define?_of_not_mem (by simp) _) ?_
  refine reads_line "indent_width".toList rfl (exists_solid_toDigits _) (readValue?_toDigits _ _ _)
    (define?_of_not_mem (by simp) _) ?_
  cases hlog : s.logFile with
  | none =>
    rw [plainEntries, hlog] at htable
    exact htable
  | some path =>
    rw [plainEntries, hlog] at htable
    exact reads_line "log_file".toList rfl (exists_solid_renderString _)
      (readValue?_renderString _ _ (hunquoted _)) (define?_of_not_mem (by simp) _) htable

/-! ### What is loaded -/

theorem texts?_map_string (texts : List (List Char)) : texts? (texts.map .string) = some texts := by
  induction texts with
  | nil => rfl
  | cons s texts ih => rw [List.map_cons, texts?, ih, Option.map_some]

/-- What the entries of settings say about the log: nothing, or a path. -/
theorem find?_log_file (s : Settings) :
    find? "log_file".toList s.entries = s.logFile.map .string := by
  cases h : s.logFile with
  | none =>
    rw [entries, plainEntries, h]
    rfl
  | some path =>
    rw [entries, plainEntries, h]
    rfl

/-- The table of extensions comes after all other entries. -/
theorem find?_extensions (s : Settings) :
    find? "extensions".toList s.entries =
      some (.table .header (extensionEntries s.extensions)) := by
  rw [entries, find?_append s.extensions_not_mem, find?, if_pos rfl]

/-- **The settings that the entries stand for**: `ofEntries?` gives them back. -/
theorem ofEntries?_entries {s : Settings} (horder : s.InOrder) (hwidth : s.indentWidth < 2 ^ 63) :
    ofEntries? s.entries = some s := by
  have hword : s.indentWidth < UInt64.size := Nat.lt_trans hwidth (by decide)
  have htable : extensions? (extensionEntries s.extensions) = some s.extensions :=
    extensions?_of_pairwise horder
  have henabled : find? "enabled".toList s.entries = some (.boolean s.enabled) := rfl
  have hlanguages : find? "languages".toList s.entries =
      some (.array (s.languages.map .string)) := rfl
  have hkeyMap : find? "default_key_map".toList s.entries = some (.string s.keyMap) := rfl
  have hindent : find? "indent_width".toList s.entries = some (.integer s.indentWidth) := rfl
  simp only [ofEntries?, field?, henabled, hlanguages, hkeyMap, hindent, find?_extensions,
    find?_log_file, texts?_map_string, htable, Option.bind_eq_bind, Option.bind_some, if_pos hword]
  obtain ⟨_, _, _, _, _, _ | path⟩ := s
  · rfl
  · rfl

theorem expandVariables?_of_not_mem (env : List Char → Option (List Char)) (fuel : Nat)
    {path : List Char} (h : '$' ∉ path) : expandVariables? env (fuel + 1) path = some path := by
  have hplain : ∀ c ∈ path, (c != '$') = true := by
    intro c hc
    rw [bne_iff_ne]
    rintro rfl
    exact h hc
  have htake : path.takeWhile (· != '$') = path := by
    rw [← List.append_nil path, List.takeWhile_append_of_pos hplain, List.takeWhile_nil]
  simp only [expandVariables?, htake, List.drop_length]

theorem expandTilde_of_not_mem (home : List Char) {path : List Char} (h : '~' ∉ path) :
    expandTilde home path = path := by
  rw [expandTilde]
  · rintro rfl
    exact h List.mem_cons_self
  · rintro u rfl
    exact h List.mem_cons_self

theorem expand?_of_not_mem (home : List Char) (env : List Char → Option (List Char))
    {path : List Char} (htilde : '~' ∉ path) (hdollar : '$' ∉ path) :
    expand? home env path = some path := by
  rw [expand?, expandVariables?_of_not_mem env _ hdollar, Option.map_some,
    expandTilde_of_not_mem home htilde, ite_self]

/-- **Saved settings are loaded as they were.**  The extensions are in the order of their keys, as
they always are when settings are loaded; the strings and keys may be any text, and the log path,
if there is one, has nothing to be expanded. -/
theorem load_restores_saved {s : Settings} (horder : s.InOrder) (hwidth : s.indentWidth < 2 ^ 63)
    (hlog : ∀ path, s.logFile = some path → '~' ∉ path ∧ '$' ∉ path) (home : List Char)
    (env : List Char → Option (List Char)) :
    load home env (.text s.render) = .ok (some s) := by
  have hparse : parse? s.render = some s := by
    rw [parse?, read?_render horder, Option.bind_some, ofEntries?_entries horder hwidth]
  have hexpand : s.expandLogFile home env = s := by
    obtain ⟨enabled, languages, keyMap, indentWidth, extensions, logFile⟩ := s
    cases logFile with
    | none => rfl
    | some path =>
      obtain ⟨htilde, hdollar⟩ := hlog path rfl
      simp only [expandLogFile, Option.map_some, expand?_of_not_mem home env htilde hdollar,
        Option.getD_some]
  rw [load, hparse]
  show Except.ok (some (s.expandLogFile home env)) = _
  rw [hexpand]

/-- The empty list of languages does not come back as the default, the name of the key map holds
quotes, a backslash, a line feed and a control character, and two of the keys need quoting. -/
theorem load_restores_saved_quoted :
    let s : Settings :=
      { enabled := false
        languages := []
        keyMap := "a \"\"\" b ''' \\ \n\x01é".toList
        indentWidth := 0
        extensions := [("".toList, "none".toList), ("a.b \"".toList, "λ".toList),
          ("scm".toList, "scheme".toList)]
        logFile := some "/var/log/edit #1".toList }
    load "/home".toList (fun _ => none) (.text s.render) = .ok (some s) := by
  refine load_restores_saved (by decide) (by decide) ?_ _ _
  rintro path ⟨⟩
  decide

end SexpEdit.Settings
