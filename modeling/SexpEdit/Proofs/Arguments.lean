/-
The arguments of a batch.

The arguments are read from the left, and what one of them is for depends on those before it: an
option takes the next argument as its value, whatever that looks like.  So they are first put into
groups, an option together with its value, in the one way there is.  Of the groups only the last
value of every option counts, whether the flag is there, and the words in their order.  Groups that
keep these may stand in any order.

* `CommandLine.spell_injective` — there is one way to group arguments;
* `CommandLine.parseFrom_spell` — reading a group adds it to what the groups before it say;
* `CommandLine.exists_spell` — what is read as a batch can be put into groups;
* `CommandLine.batch_by_last_values` — what a batch is made of.
-/
import SexpEdit.CommandLine

namespace SexpEdit

namespace CommandLine

/-- An option with a value. -/
inductive ValueOption where
  | batch
  | cursor
  | lang
  deriving DecidableEq, Repr

/-- How a `ValueOption` is written. -/
def ValueOption.flag : ValueOption → String
  | batch => "--batch"
  | cursor => "--cursor"
  | lang => "--lang"

/-- What belongs together on a command line. -/
inductive Argument where
  | option (option : ValueOption) (value : String)
  | printClipboard
  | word (text : String)
  deriving DecidableEq, Repr

/-- Whether `s`, where no value is awaited, is a word. -/
def IsWord (s : String) : Prop :=
  s ≠ "-h" ∧ ¬['-', '-'] <+: s.toList

instance (s : String) : Decidable (IsWord s) :=
  inferInstanceAs (Decidable (_ ∧ _))

namespace Argument

/-- An `Argument` as it is written on the command line. -/
def spell : Argument → List String
  | option o value => [o.flag, value]
  | printClipboard => ["--print-clipboard"]
  | word text => [text]

/-- A word `IsWord`, so it is not taken for something else. A value may be anything. -/
def Proper : Argument → Prop
  | word text => IsWord text
  | _ => True

instance : DecidablePred Proper
  | option _ _ => .isTrue trivial
  | printClipboard => .isTrue trivial
  | word text => inferInstanceAs (Decidable (IsWord text))

/-- The value of an `Argument`, if it is the option `o`. -/
def valueOf? (o : ValueOption) : Argument → Option String
  | option o' value => if o' = o then some value else none
  | _ => none

/-- The text of an `Argument`, if it is a word. -/
def word? : Argument → Option String
  | word text => some text
  | _ => none

end Argument

/-- The arguments that the groups `items` are written as. -/
def spell (items : List Argument) : List String :=
  items.flatMap Argument.spell

/-- The values of the option `o` among `items`, in their order. -/
def valuesOf (o : ValueOption) (items : List Argument) : List String :=
  items.filterMap (Argument.valueOf? o)

/-- The words among `items`, in their order. -/
def words (items : List Argument) : List String :=
  items.filterMap Argument.word?

/-- What the value of the option for the input means. -/
def inputOf (value : String) : Input :=
  if value = "-" then .stdin else .file value

/-! ### One way to group arguments -/

theorem IsWord.ne {s flag : String} (h : IsWord s) (hflag : ['-', '-'] <+: flag.toList) :
    s ≠ flag := by
  rintro rfl
  exact h.2 hflag

theorem ValueOption.flag_injective {o o' : ValueOption} (h : o.flag = o'.flag) : o = o' := by
  revert h
  cases o <;> cases o' <;> decide

theorem ValueOption.dashes_prefix_flag (o : ValueOption) : ['-', '-'] <+: o.flag.toList := by
  cases o <;> decide

theorem ValueOption.flag_ne (o : ValueOption) : o.flag ≠ "--print-clipboard" := by
  cases o <;> decide

theorem Argument.eq_of_spell_append {a b : Argument} (ha : a.Proper) (hb : b.Proper)
    {rest rest' : List String} (h : a.spell ++ rest = b.spell ++ rest') : a = b ∧ rest = rest' := by
  have hclip : ['-', '-'] <+: "--print-clipboard".toList := by decide
  cases a with
  | option o value =>
    cases b with
    | option o' value' =>
      simp only [spell, List.cons_append, List.nil_append, List.cons.injEq] at h
      obtain ⟨hflag, rfl, rfl⟩ := h
      rw [ValueOption.flag_injective hflag]
      exact ⟨rfl, rfl⟩
    | printClipboard => exact absurd (List.cons.inj h).1 o.flag_ne
    | word text => exact absurd (List.cons.inj h).1.symm (IsWord.ne hb o.dashes_prefix_flag)
  | printClipboard =>
    cases b with
    | option o value => exact absurd (List.cons.inj h).1.symm o.flag_ne
    | printClipboard => exact ⟨rfl, (List.cons.inj h).2⟩
    | word text => exact absurd (List.cons.inj h).1.symm (IsWord.ne hb hclip)
  | word text =>
    cases b with
    | option o value => exact absurd (List.cons.inj h).1 (IsWord.ne ha o.dashes_prefix_flag)
    | printClipboard => exact absurd (List.cons.inj h).1 (IsWord.ne ha hclip)
    | word text' => exact ⟨congrArg word (List.cons.inj h).1, (List.cons.inj h).2⟩

theorem Argument.spell_ne_nil (a : Argument) (rest : List String) : a.spell ++ rest ≠ [] := by
  cases a <;> exact List.cons_ne_nil _ _

/-- There is one way to group arguments: `spell` has an inverse on `Proper` groups. -/
theorem spell_injective {items : List Argument} : ∀ {items' : List Argument},
    (∀ a ∈ items, a.Proper) → (∀ a ∈ items', a.Proper) → spell items = spell items' →
      items = items' := by
  induction items with
  | nil =>
    intro items' _ _ h
    cases items' with
    | nil => rfl
    | cons a items' => exact absurd h.symm (a.spell_ne_nil _)
  | cons a items ih =>
    intro items' hproper hproper' h
    cases items' with
    | nil => exact absurd h (a.spell_ne_nil _)
    | cons b items' =>
      rw [List.forall_mem_cons] at hproper hproper'
      obtain ⟨rfl, hrest⟩ := Argument.eq_of_spell_append hproper.1 hproper'.1 h
      rw [ih hproper.2 hproper'.2 hrest]

/-! ### What groups say -/

/-- What the groups `items` say all together. -/
def gather (items : List Argument) : Parsed where
  input := (valuesOf .batch items).getLast?.map inputOf
  selection :=
    ((valuesOf .cursor items).getLast?.bind fun v => (selection v.toList).toOption).getD (0, 0)
  language := (valuesOf .lang items).getLast?
  printClipboard := decide (.printClipboard ∈ items)
  positionals := (words items).reverse

/-- Whether all values of the option for the cursor can be read. -/
def CursorsRead (items : List Argument) : Prop :=
  ∀ value ∈ valuesOf .cursor items, ∃ s, selection value.toList = .ok s

theorem valuesOf_append (o : ValueOption) (items items' : List Argument) :
    valuesOf o (items ++ items') = valuesOf o items ++ valuesOf o items' :=
  List.filterMap_append

/-- Reading the group `a` adds it to what the groups before it say, their `gather`. -/
theorem parseFrom_spell {a : Argument} (hproper : a.Proper) {items : List Argument}
    (hread : CursorsRead [a]) (rest : List String) :
    parseFrom (gather items) (a.spell ++ rest) = parseFrom (gather (items ++ [a])) rest := by
  cases a with
  | option o value =>
    cases o with
    | batch =>
      have hgather : gather (items ++ [.option .batch value]) =
          { gather items with input := some (inputOf value) } := by
        simp [gather, valuesOf, words, Argument.valueOf?, Argument.word?]
      rw [hgather]
      rfl
    | cursor =>
      obtain ⟨sel, hsel⟩ := hread value (by simp [valuesOf, Argument.valueOf?])
      have hgather : gather (items ++ [.option .cursor value]) =
          { gather items with selection := sel } := by
        simp [gather, valuesOf, words, Argument.valueOf?, Argument.word?, hsel, Except.toOption]
      rw [hgather, Argument.spell, parseFrom.eq_def]
      simp only [List.cons_append, List.nil_append, hsel]
      rfl
    | lang =>
      have hgather : gather (items ++ [.option .lang value]) =
          { gather items with language := some value } := by
        simp [gather, valuesOf, words, Argument.valueOf?, Argument.word?]
      rw [hgather]
      rfl
  | printClipboard =>
    have hgather : gather (items ++ [.printClipboard]) =
        { gather items with printClipboard := true } := by
      simp [gather, valuesOf, words, Argument.valueOf?, Argument.word?]
    rw [hgather, Argument.spell, parseFrom.eq_def]
    rfl
  | word text =>
    have hgather : gather (items ++ [.word text]) =
        { gather items with positionals := text :: (gather items).positionals } := by
      simp [gather, valuesOf, words, Argument.valueOf?, Argument.word?]
    have hne : ∀ flag : String, ['-', '-'] <+: flag.toList → text ≠ flag := fun _ => hproper.ne
    have hdashes : ¬['-', '-'].isPrefixOf text.toList = true := by
      rw [List.isPrefixOf_iff_prefix]
      exact hproper.2
    rw [hgather, Argument.spell, List.singleton_append, parseFrom.eq_def]
    show (if text = "-h" ∨ text = "--help" then _ else _) = _
    rw [if_neg (not_or.mpr ⟨hproper.1, hne _ (by decide)⟩), if_neg (hne _ (by decide)),
      if_neg (hne _ (by decide)), if_neg (hne _ (by decide)), if_neg (hne _ (by decide)),
      if_neg (hne _ (by decide)), if_neg hdashes]

theorem CursorsRead.cons_iff {a : Argument} {items : List Argument} :
    CursorsRead (a :: items) ↔ CursorsRead [a] ∧ CursorsRead items := by
  rw [CursorsRead, ← List.singleton_append, valuesOf_append, List.forall_mem_append]
  rfl

/-- What groups say, their `gather`, is all that is read of their `spell`. -/
theorem parse_spell {items : List Argument} (hproper : ∀ a ∈ items, a.Proper)
    (hread : CursorsRead items) : parse (spell items) = (gather items).invocation := by
  have hrun : ∀ before, parseFrom (gather before) (spell items) =
      (gather (before ++ items)).invocation := by
    induction items with
    | nil =>
      intro before
      rw [List.append_nil]
      rfl
    | cons a items ih =>
      intro before
      rw [List.forall_mem_cons] at hproper
      rw [CursorsRead.cons_iff] at hread
      rw [spell, List.flatMap_cons, parseFrom_spell hproper.1 hread.1, ← spell,
        ih hproper.2 hread.2, List.append_assoc, List.singleton_append]
  exact hrun []

/-- What is read as a batch can be put into `Proper` groups. -/
theorem exists_spell {p : Parsed} {args : List String} {r : BatchRequest}
    (h : parseFrom p args = .ok (.batch r)) :
    ∃ items, (∀ a ∈ items, a.Proper) ∧ CursorsRead items ∧ spell items = args := by
  have hcons : ∀ {a : Argument} {args}, a.Proper → CursorsRead [a] →
      (∃ items, (∀ a ∈ items, a.Proper) ∧ CursorsRead items ∧ spell items = args) →
        ∃ items, (∀ a ∈ items, a.Proper) ∧ CursorsRead items ∧ spell items = a.spell ++ args := by
    rintro a args ha hread ⟨items, hitems, hcursors, rfl⟩
    exact ⟨a :: items, List.forall_mem_cons.mpr ⟨ha, hitems⟩,
      CursorsRead.cons_iff.mpr ⟨hread, hcursors⟩, rfl⟩
  -- a group without the option for the cursor has nothing to be read
  have hnone : ∀ {a : Argument}, a.valueOf? .cursor = none → CursorsRead [a] := by
    intro a ha value hvalue
    rw [valuesOf, List.filterMap_cons_none ha] at hvalue
    cases hvalue
  fun_induction parseFrom p args with
  | case1 p =>
    exact ⟨[], fun _ ha => absurd ha List.not_mem_nil, fun _ hv => absurd hv List.not_mem_nil, rfl⟩
  | case2 => cases h
  | case3 => cases h
  | case4 => cases h
  | case5 p value rest _ _ ih => exact hcons (a := .option .batch value) trivial (hnone rfl) (ih h)
  | case6 => cases h
  | case7 => cases h
  | case8 p value rest sel hsel _ _ _ ih =>
    refine hcons (a := .option .cursor value) trivial ?_ (ih h)
    intro v hv
    rw [List.mem_singleton.mp hv]
    exact ⟨sel, hsel⟩
  | case9 => cases h
  | case10 p value rest _ _ _ _ ih =>
    exact hcons (a := .option .lang value) trivial (hnone rfl) (ih h)
  | case11 p rest _ _ _ _ _ ih => exact hcons (a := .printClipboard) trivial (hnone rfl) (ih h)
  | case12 => cases h
  | case13 p text rest hhelp _ _ _ _ _ hdashes ih =>
    rw [List.isPrefixOf_iff_prefix] at hdashes
    exact hcons (a := .word text) ⟨(not_or.mp hhelp).1, hdashes⟩ (hnone rfl) (ih h)

/-! ### The batch -/

/-- Words are looked up one by one, and each has to name an operation by `Operation.ofWord?`. -/
theorem operations_eq_ok_iff {ss : List String} {ops : List Operation} :
    operations ss = .ok ops ↔ ss.map Operation.ofWord? = ops.map .ok := by
  induction ss generalizing ops with
  | nil =>
    rw [operations, Except.ok.injEq, List.map_nil]
    cases ops <;> simp
  | cons s ss ih =>
    rw [operations, List.map_cons]
    cases hs : Operation.ofWord? s with
    | error e => cases ops <;> simp
    | ok op =>
      cases ops with
      | nil => cases operations ss <;> simp [Except.map]
      | cons op' ops =>
        rw [List.map_cons, List.cons.injEq, Except.ok.injEq, ← ih]
        cases operations ss <;> simp [Except.map]

theorem invocation_eq_batch_iff {p : Parsed} {r : BatchRequest} :
    p.invocation = .ok (.batch r) ↔
      p.input = some r.input ∧ p.positionals ≠ [] ∧ r.selection = p.selection ∧
        r.language = p.language ∧ r.printClipboard = p.printClipboard ∧
        p.positionals.reverse.map Operation.ofWord? = r.commands.map .ok := by
  rw [← operations_eq_ok_iff]
  obtain ⟨input?, sel, language, clipboard, positionals⟩ := p
  obtain ⟨input, sel', language', commands, clipboard'⟩ := r
  cases input? with
  | none =>
    have hnot : (Parsed.mk none sel language clipboard positionals).invocation ≠
        .ok (.batch ⟨input, sel', language', commands, clipboard'⟩) := by
      unfold Parsed.invocation
      split <;> simp_all
    simp [hnot]
  | some input' =>
    by_cases hne : positionals = []
    · simp [Parsed.invocation, hne]
    · have hinvocation : (Parsed.mk (some input') sel language clipboard positionals).invocation =
          (operations positionals.reverse).map fun commands =>
            .batch ⟨input', sel, language, commands, clipboard⟩ := by
        unfold Parsed.invocation
        split <;> simp_all
      rw [hinvocation]
      cases operations positionals.reverse with
      | error e => simp [Except.map]
      | ok ops =>
        simp only [Except.map, Except.ok.injEq, Invocation.batch.injEq, BatchRequest.mk.injEq,
          Option.some.injEq, hne, ne_eq, not_false_eq_true, true_and]
        constructor
        · rintro ⟨rfl, rfl, rfl, rfl, rfl⟩
          exact ⟨rfl, rfl, rfl, rfl, rfl⟩
        · rintro ⟨rfl, rfl, rfl, rfl, rfl⟩
          exact ⟨rfl, rfl, rfl, rfl, rfl⟩

/-- What groups say, their `gather`, does not depend on how the groups of different kinds are
mixed. -/
theorem gather_congr {items items' : List Argument} (hperm : items'.Perm items)
    (hvalues : ∀ o, valuesOf o items' = valuesOf o items) (hwords : words items' = words items) :
    gather items' = gather items := by
  have hclip : Argument.printClipboard ∈ items' ↔ Argument.printClipboard ∈ items := hperm.mem_iff
  simp only [gather, hvalues, hwords, hclip]

/-- **A batch is made of the last values, the flag and the words.**  Arguments that are read as a
batch can be put into groups in one way, where the value of an option may be anything and a word is
not taken for an option.  The input is the last one given, the selection and the language are the
last ones given or their defaults, the clipboard is printed when the flag is there, and the
operations are those that the words name, in their order.  Groups in another order, in which the
values of each option and the words come in the same order, are read as the same batch. -/
theorem batch_by_last_values {args : List String} {r : BatchRequest}
    (h : parse args = .ok (.batch r)) :
    ∃ items, ((∀ a ∈ items, a.Proper) ∧ spell items = args) ∧
      (∀ items', (∀ a ∈ items', a.Proper) → spell items' = args → items' = items) ∧
      (valuesOf .batch items).getLast?.map inputOf = some r.input ∧
      (valuesOf .cursor items = [] → r.selection = (0, 0)) ∧
      (∀ value, (valuesOf .cursor items).getLast? = some value →
        selection value.toList = .ok r.selection) ∧
      r.language = (valuesOf .lang items).getLast? ∧
      (r.printClipboard = true ↔ .printClipboard ∈ items) ∧
      (words items).map Operation.ofWord? = r.commands.map .ok ∧
      ∀ items', items'.Perm items → (∀ o, valuesOf o items' = valuesOf o items) →
        words items' = words items → parse (spell items') = .ok (.batch r) := by
  obtain ⟨items, hproper, hread, rfl⟩ := exists_spell h
  have hparse := parse_spell hproper hread
  have hbatch := hparse.symm.trans h
  obtain ⟨hinput, -, hselection, hlanguage, hclip, hcommands⟩ := invocation_eq_batch_iff.mp hbatch
  rw [gather, List.reverse_reverse] at hcommands
  refine ⟨items, ⟨hproper, rfl⟩, fun items' hproper' => spell_injective hproper' hproper, hinput,
    ?_, ?_, hlanguage, ?_, hcommands, ?_⟩
  · intro hnil
    rw [hselection, gather, hnil]
    rfl
  · intro value hvalue
    obtain ⟨sel, hsel⟩ := hread value (List.mem_of_getLast? hvalue)
    rw [hselection, gather, hvalue, Option.bind_some, hsel]
    rfl
  · rw [hclip, gather, decide_eq_true_iff]
  · intro items' hperm hvalues hwords
    have hproper' : ∀ a ∈ items', a.Proper := fun a ha => hproper a (hperm.mem_iff.mp ha)
    have hread' : CursorsRead items' := by
      rw [CursorsRead, hvalues]
      exact hread
    rw [parse_spell hproper' hread', gather_congr hperm hvalues hwords, hbatch]

/-- The value of the language looks like a flag, two options are repeated, and in the other order
the words are apart from each other. -/
theorem batch_by_last_values_repeated :
    let args := ["--lang", "--help", "--batch", "a.clj", "killSexpForward", "--cursor", "1",
      "--print-clipboard", "--batch", "-", "--cursor", "2:6", "paredit.forwardSexp"]
    let reordered := ["killSexpForward", "--batch", "a.clj", "--cursor", "1", "paredit.forwardSexp",
      "--cursor", "2:6", "--batch", "-", "--lang", "--help", "--print-clipboard"]
    let r : BatchRequest := ⟨.stdin, (2, 6), some "--help",
      [.edit (.kill false), .navigate .forward], true⟩
    parse args = .ok (.batch r) ∧ parse reordered = .ok (.batch r) := by
  intro args reordered r
  let grouped : List Argument := [.option .lang "--help", .option .batch "a.clj",
    .word "killSexpForward", .option .cursor "1", .printClipboard, .option .batch "-",
    .option .cursor "2:6", .word "paredit.forwardSexp"]
  let grouped' : List Argument := [.word "killSexpForward", .option .batch "a.clj",
    .option .cursor "1", .word "paredit.forwardSexp", .option .cursor "2:6", .option .batch "-",
    .option .lang "--help", .printClipboard]
  have hproper : ∀ a ∈ grouped, a.Proper := by decide
  have hread : CursorsRead grouped :=
    List.forall_mem_cons.mpr ⟨⟨(1, 1), rfl⟩, List.forall_mem_singleton.mpr ⟨(2, 6), rfl⟩⟩
  have hargs : parse args = .ok (.batch r) := by
    refine (parse_spell hproper hread).trans (invocation_eq_batch_iff.mpr ?_)
    exact ⟨rfl, List.cons_ne_nil _ _, rfl, rfl, rfl, rfl⟩
  obtain ⟨items, -, honly, -, -, -, -, -, -, hreordered⟩ := batch_by_last_values hargs
  obtain rfl : grouped = items := honly grouped hproper rfl
  refine ⟨hargs, hreordered grouped' (by decide) (fun o => ?_) rfl⟩
  cases o <;> rfl

end CommandLine

end SexpEdit
