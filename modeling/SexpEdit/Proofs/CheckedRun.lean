/-
Checked runs.

Every operation on words does what `Session.run` does, as long as there is room for it: the text that
it makes is no longer than a text may be, and the selection can be moved by all that is put in.
Without room it comes to the same result on the same text, or it breaks off because a number or a
text is too large.  It never breaks off for another reason: no difference is negative, and no index
or slice is out of range.

A batch starts with a text, a selection that may be anywhere, and any history.  It never stops with
an error.  How much it puts in is `Batch.load`, which is read off the run without words.

* `Command.spliceAll?_bounds` — how long a text gets, and how far commands reach in it;
* `Checked.reindent_gives`, `Checked.perform_gives`, `Checked.cut_gives` — the steps of an operation;
* `Checked.run_gives` — operations;
* `Session.byteLength_run_le` — how long the text is after an operation;
* `Batch.runAll_gives` — runs of operations;
* `Batch.run_returns_with_room` — what comes of a batch.
-/
import SexpEdit.Batch
import SexpEdit.Proofs.CheckedIndent
import SexpEdit.Proofs.CheckedTransactions
import SexpEdit.Proofs.SafeRun
import SexpEdit.Proofs.Steadiness

namespace SexpEdit

/-! ### How much commands put in -/

theorem Text.length_le_byteLength (cs : List Char) : cs.length ≤ byteLength cs := by
  induction cs with
  | nil => exact Nat.le_refl _
  | cons c cs ih =>
    have hc := c.utf8Size_pos
    rw [byteLength, List.length_cons]
    omega

namespace Command

/-- How many bytes commands put in. -/
def load : List Command → Nat
  | [] => 0
  | c :: commands => Text.byteLength c.op.inserted + load commands

/-- The `load` of commands is that of the changes they stand for. -/
theorem load_eq {changes : List Change} : ∀ {commands : List Command},
    Change.commands changes = .ok commands → load commands = Change.load changes := by
  induction changes with
  | nil =>
    intro commands h
    cases h
    rfl
  | cons c changes ih =>
    intro commands h
    obtain ⟨kind, start, payload⟩ := c
    rw [Change.commands] at h
    split at h
    · cases h
    · next first hfirst =>
      split at h
      · cases h
      · next rest hrest =>
        cases h
        have hbytes : Text.byteLength first.op.inserted = payload.bytes := by
          cases kind <;> cases payload <;> cases hfirst <;> rfl
        rw [load, ih hrest, hbytes, Change.load]

theorem grown_le_load (commands : List Command) : grown commands ≤ load commands := by
  induction commands with
  | nil => exact Nat.le_refl _
  | cons c commands ih =>
    have hc := Text.length_le_byteLength c.op.inserted
    rw [grown, List.map_cons, Op.grown, load]
    exact Nat.add_le_add hc ih

theorem splice?_bounds {cs out : List Char} {c : Command} (h : c.splice? cs = some out) :
    Text.byteLength out ≤ Text.byteLength cs + Text.byteLength c.op.inserted ∧
      c.stop ≤ Text.byteLength cs + Text.byteLength c.op.inserted := by
  have hlength := Text.length_le_byteLength cs
  have hsplit (xs : List Char) (n : Nat) :
      Text.byteLength (xs.take n) + Text.byteLength (xs.drop n) = Text.byteLength xs := by
    rw [← Text.byteLength_append, List.take_append_drop]
  cases c with
  | insert s new =>
    have hnew := Text.length_le_byteLength new
    have hcs := hsplit cs s
    rw [splice?] at h
    split at h
    · cases h
      simp only [Text.byteLength_append, op, Op.inserted, stop]
      omega
    · cases h
  | delete s n =>
    have hcs := hsplit cs s
    have hdrop := hsplit (cs.drop s) n
    rw [List.drop_drop] at hdrop
    rw [splice?] at h
    split at h
    · cases h
      simp only [Text.byteLength_append, op, Op.inserted, stop, Text.byteLength]
      omega
    · cases h

/-- The text that commands make is longer by no more than their `load`, and no command reaches
further than that. -/
theorem spliceAll?_bounds {commands : List Command} {out : List Char} : ∀ {cs : List Char},
    spliceAll? cs commands = some out →
      Text.byteLength out ≤ Text.byteLength cs + load commands ∧
        ∀ c ∈ commands, c.stop ≤ Text.byteLength cs + load commands := by
  induction commands with
  | nil =>
    intro cs h
    cases h
    exact ⟨Nat.le_refl _, fun _ hc => by cases hc⟩
  | cons c commands ih =>
    intro cs h
    rw [spliceAll?_cons] at h
    obtain ⟨mid, hmid, hrest⟩ := Option.bind_eq_some_iff.mp h
    obtain ⟨hbytes, hstop⟩ := splice?_bounds hmid
    obtain ⟨hout, hstops⟩ := ih hrest
    rw [load]
    refine ⟨by omega, fun d hd => ?_⟩
    rcases List.mem_cons.mp hd with rfl | hd
    · omega
    · have := hstops d hd
      omega

theorem op_stop_le (c : Command) : c.op.stop ≤ c.stop := by
  cases c with
  | insert s cs => exact Nat.le_add_right _ _
  | delete s n => exact Nat.le_refl _

end Command

/-- There is room in `h` for `n` more bytes: the text may become so long, and the selection can be
moved so far. -/
def Host.Roomy (h : Host) (n : Nat) : Prop :=
  Text.byteLength h.text + n ≤ maxText ∧ h.buffer.selection.Movable n

theorem Host.Roomy.mono {h : Host} {m n : Nat} (hroom : h.Roomy n) (hle : m ≤ n) : h.Roomy m :=
  ⟨(Nat.add_le_add_left hle _).trans hroom.1, hroom.2.mono hle⟩

/-- With the caret in a text that has room for `n` more bytes, the host has room for them. -/
theorem Host.roomy_selectDestination {h : Host} {caret n : Nat} (hcaret : caret ≤ h.length)
    (hbytes : Text.byteLength h.text + n ≤ maxText) :
    (h.selectDestination (.point caret)).2.Roomy n := by
  have hlength : h.length ≤ Text.byteLength h.text := Text.length_le_byteLength h.text
  obtain ⟨hsmall, -⟩ := maxText_lt_maxSigned
  have hmove : caret + n ≤ maxSigned := by omega
  have hanchor : (h.selectDestination (.point caret)).2.buffer.selection.anchor = caret := ite_self _
  exact ⟨hbytes, by rw [hanchor]; exact hmove, hmove⟩

theorem Makes.byteLength_le {cs out : List Char} {changes : List Change}
    (h : Makes cs changes out) :
    Text.byteLength out ≤ Text.byteLength cs + Change.load changes := by
  obtain ⟨commands, hcommands, hsplice⟩ := h
  rw [← Command.load_eq hcommands]
  exact (Command.spliceAll?_bounds hsplice).1

/-! ### The steps of an operation -/

/-- Steps come to the same, and their hosts agree by `Host.Agrees`. -/
def Host.StepsAgree {ρ σ : Type} (r r' : ρ × Host × σ) : Prop :=
  r.1 = r'.1 ∧ r.2.1.Agrees r'.2.1 ∧ r.2.2 = r'.2.2

theorem Host.StepsAgree.refl {ρ σ : Type} (r : ρ × Host × σ) : Host.StepsAgree r r :=
  ⟨rfl, .refl _, rfl⟩

/-- How many bytes the edit `e` puts in, with the indentation after it unless `skipsIndent`. -/
def Host.performLoad (h : Host) (e : Edit) (skipsIndent : Bool) (width : Nat) : Nat :=
  match Change.commands e.changes with
  | .error _ => 0
  | .ok commands =>
    Command.load commands + Change.load
      (if skipsIndent then [] else Command.settling (h.applyAll commands).2.text commands width)

/-- How many bytes the structural edit `e` at the selection puts in, by `performLoad`. -/
def Host.editLoad (h : Host) (e : StructuralEdit) (width : Nat) : Nat :=
  match e.at? h.document h.currentSelection.start (h.liveOptions width) with
  | none => 0
  | some r => h.performLoad r e.skipsIndent width

theorem Host.editLoad_eq {h : Host} {e : StructuralEdit} {width : Nat} {r : Edit}
    (hat : e.at? h.document h.currentSelection.start (h.liveOptions width) = some r) :
    h.editLoad e width = h.performLoad r e.skipsIndent width := by
  simp only [editLoad, hat]

namespace Checked

variable {room : Prop} {h : Host}

theorem document_gives (cs : List Char) (hroom : room → Text.byteLength cs ≤ maxText) :
    Gives room (document cs) (fun d => d = .ofText cs ∧ d.length ≤ maxText) (.ofText cs) := by
  by_cases hfits : Text.byteLength cs ≤ maxText
  · exact .of_eq (document_eq hfits) ⟨rfl, (Text.length_le_byteLength cs).trans hfits⟩
  · exact .outgrown _ (if_pos (Nat.lt_of_not_le hfits)) rfl fun hr => hfits (hroom hr)

/-- Commands that stay in the text reach no further than the text with their `load`. -/
theorem applyAll_of_splices {commands : List Command} {out : List Char}
    (hsplice : Command.spliceAll? h.text commands = some out)
    (hroom : room → h.Roomy (Command.load commands)) :
    Gives room (applyAll h commands) (Host.ResultsAgree · (h.applyAll commands))
      (h.applyAll commands) := by
  refine applyAll_gives commands h (fun hr c hc => ?_) fun hr =>
    (hroom hr).2.mono (Command.grown_le_load commands)
  have hreach := (Command.spliceAll?_bounds hsplice).2 c hc
  have hstop := c.op_stop_le
  have hbytes := (hroom hr).1
  obtain ⟨hsmall, hword⟩ := maxText_lt_maxSigned
  omega

theorem applyChanges_gives {changes : List Change} {out : List Char}
    (hmakes : Makes h.text changes out) (hroom : room → h.Roomy (Change.load changes)) :
    Gives room (applyChanges h changes) (Host.ResultsAgree · (h.applyChanges changes))
      (h.applyChanges changes) := by
  obtain ⟨commands, hcommands, hsplice⟩ := hmakes
  rw [← Command.load_eq hcommands] at hroom
  rw [applyChanges, Host.applyChanges, hcommands]
  dsimp only
  refine (applyAll_of_splices hsplice hroom).bind fun r hr heq => ?_
  exact .value _ rfl ⟨congrArg Host.liftEdit hr.1, hr.2⟩ fun hroom => by rw [heq hroom]

theorem reindent_gives (h : Host) (start stop width : Nat)
    (hroom : room → h.Roomy (Change.load
      (h.document.indent start { otherEnd := some stop, indentWidth := width }).changes)) :
    Gives room (reindent h start stop width) (Host.ResultsAgree · (h.reindent start stop width))
      (h.reindent start stop width) := by
  obtain ⟨out, hmakes, -⟩ :=
    h.document.indent_makes start { otherEnd := some stop, indentWidth := width }
  have hdocument := document_gives h.text fun hr => (Nat.le_add_right _ _).trans (hroom hr).1
  rw [reindent]
  refine hdocument.bind ?_
  rintro _ ⟨rfl, hlength⟩ -
  have hindent := (indent_gives hlength start { otherEnd := some stop, indentWidth := width }).weaken
    (fun hr => (Nat.le_add_left _ _).trans (hroom hr).1) (fun _ => id) fun _ => rfl
  refine hindent.bind fun e he _ => ?_
  rw [he]
  exact applyChanges_gives hmakes hroom

theorem touched_gives {commands : List Command}
    (hstop : room → ∀ c ∈ commands, c.stop ≤ maxWord) :
    Gives room (touched commands) (· = Command.touched? commands)
      (Command.touched? commands) := by
  induction commands with
  | nil => exact .of_eq rfl rfl
  | cons c commands ih =>
    have hc : Gives room (stop c) (· = c.stop) c.stop := by
      have hle := fun hr => hstop hr c List.mem_cons_self
      cases c with
      | insert s cs => exact plus_gives hle
      | delete s n => exact plus_gives hle
    rw [touched, Command.touched?]
    refine hc.bind fun last hlast _ => ?_
    refine (ih fun hr d hd => hstop hr d (List.mem_cons_of_mem _ hd)).bind fun rest hrest _ => ?_
    rw [hlast, hrest]
    cases Command.touched? commands <;> exact .of_eq rfl rfl

theorem settleLines_gives (h : Host) (commands : List Command) (width : Nat)
    (hstop : room → ∀ c ∈ commands, c.stop ≤ maxWord)
    (hroom : room → h.Roomy (Change.load (Command.settling h.text commands width))) :
    Gives room (settleLines h commands width)
      (Host.ResultsAgree · (h.settleLines commands width)) (h.settleLines commands width) := by
  rw [Command.settling] at hroom
  rw [settleLines, Host.settleLines]
  refine (touched_gives hstop).bind fun range hrange _ => ?_
  rw [hrange]
  generalize Command.touched? commands = touched at hroom
  cases touched with
  | none => exact .of_eq rfl (.refl _)
  | some range => exact reindent_gives h range.1 range.2 width hroom

theorem indentSelection_gives (h : Host) (width : Nat)
    (hroom : room → h.Roomy (Change.load (h.document.indent h.currentSelection.start
      { otherEnd := some h.currentSelection.stop, indentWidth := width }).changes)) :
    Gives room (indentSelection h width) (Host.ResultsAgree · (h.indent width))
      (h.indent width) := by
  refine (reindent_gives h _ _ width hroom).bind fun r hr heq => ?_
  exact .value _ (conclude_eq r.1 r.2) hr.conclude fun hroom => by rw [heq hroom]; rfl

/-- The caret of an edit that `Fits` is in the text that its changes make, so the indentation after
it has a small selection to carry. -/
theorem perform_gives (hopen : h.Open) {e : Edit} (hfits : e.Fits h.length) (skipsIndent : Bool)
    (width : Nat) (hroom : room → h.Roomy (h.performLoad e skipsIndent width)) :
    Gives room (perform h e skipsIndent width)
      (Host.ResultsAgree · (h.perform e skipsIndent width)) (h.perform e skipsIndent width) := by
  obtain ⟨mid, commands, hcommands, hsplice⟩ := hfits.changes.exists_makes rfl
  change Command.spliceAll? h.text commands = some mid at hsplice
  obtain ⟨made, hmade, -, rfl⟩ := Host.applyAll_open hopen hsplice
  simp only [Host.performLoad, hcommands, hmade] at hroom
  obtain ⟨hbytes, hstops⟩ := Command.spliceAll?_bounds hsplice
  obtain ⟨hsmall, hword⟩ := maxText_lt_maxSigned
  have happly := applyAll_of_splices hsplice fun hr => (hroom hr).mono (Nat.le_add_right _ _)
  have hstop : room → ∀ c ∈ commands, c.stop ≤ maxWord := by
    intro hr c hc
    have hin := (hroom hr).1
    have hreach := hstops c hc
    omega
  let placed := (made.selectDestination (.point e.caret)).2
  have hplaced : room → placed.Roomy (Change.load
      (if skipsIndent then [] else Command.settling made.text commands width)) := by
    intro hr
    have hin := (hroom hr).1
    have hlength : made.length = Change.resized h.length e.changes :=
      Makes.length_eq ⟨commands, hcommands, hsplice⟩
    exact Host.roomy_selectDestination (by rw [hlength]; exact hfits.caret) (by omega)
  have hsettled : Gives room
      (if skipsIndent then pure (.ok true, placed) else settleLines placed commands width)
      (Host.ResultsAgree ·
        (if skipsIndent then (.ok true, placed) else placed.settleLines commands width))
      (if skipsIndent then (.ok true, placed) else placed.settleLines commands width) := by
    cases skipsIndent with
    | true => exact .of_eq rfl (.refl _)
    | false => exact settleLines_gives placed commands width hstop hplaced
  rw [hmade] at happly
  rw [perform, Host.perform, hcommands]
  dsimp only
  rw [hmade]
  refine happly.bind fun r hr _ => ?_
  obtain ⟨result, made'⟩ := r
  obtain ⟨rfl, hagrees⟩ : result = .ok true ∧ made'.Agrees made := hr
  dsimp only [Host.selectDestination]
  rw [hagrees.select]
  refine hsettled.bind fun r hr heq => ?_
  rw [conclude_eq, pure_bind]
  obtain ⟨hresult, hhost⟩ := hr.conclude
  exact .value _ rfl ⟨congrArg Host.outcomeOf hresult, hhost⟩ fun hroom => by rw [heq hroom]; rfl

/-- A structural edit finds the selection in the text, so its arithmetic is exact. -/
theorem runEdit_gives (hopen : h.Open) (e : StructuralEdit) (width : Nat)
    (hroom : room → h.Roomy (h.editLoad e width)) :
    Gives room (runEdit h (edit e) e.skipsIndent width)
      (Host.ResultsAgree · (h.runEdit e.at? e.skipsIndent width))
      (h.runEdit e.at? e.skipsIndent width) := by
  obtain ⟨hle, hstop, -⟩ := h.currentSelection_bounds
  have hdocument := document_gives h.text fun hr => (Nat.le_add_right _ _).trans (hroom hr).1
  rw [runEdit, Host.runEdit]
  dsimp only
  refine hdocument.bind ?_
  rintro _ ⟨rfl, hlength⟩ -
  rw [edit_eq e hlength (hle.trans hstop), pure_bind]
  have hlive : Document.ofText h.text = h.document := rfl
  rw [hlive]
  cases hat : e.at? h.document h.currentSelection.start
      { otherEnd :=
          if h.currentSelection.start = h.currentSelection.stop then none
          else some h.currentSelection.stop
        indentWidth := width } with
  | none => exact .of_eq rfl (.refl _)
  | some r =>
    have hfits : r.Fits h.length := Host.fits_at? hat
    rw [Host.editLoad_eq hat] at hroom
    dsimp only
    by_cases hnone : r.changes.isEmpty
    · rw [if_pos hnone, if_pos hnone]
      exact .of_eq rfl (.refl _)
    · rw [if_neg hnone, if_neg hnone]
      exact perform_gives hopen hfits e.skipsIndent width hroom

theorem reach_gives (h : Host) (m : Motion) (hroom : room → Text.byteLength h.text ≤ maxText) :
    Gives room (reach h fun d offset => target d offset m)
      (· = h.reach fun d offset => m.target d offset)
      (h.reach fun d offset => m.target d offset) := by
  refine (document_gives h.text hroom).bind ?_
  rintro _ ⟨rfl, hlength⟩ -
  dsimp only
  rw [target_eq hlength, pure_bind]
  exact .of_eq rfl rfl

theorem copySpan_eq (hopen : h.Open) (c : Clipboard) (a b : Nat) :
    copySpan c h a b = pure (c.copySpan h a b) := by
  have hslice : sliceHost h (min a b) (max a b) = pure (h.slice (min a b) (max a b)) := by
    unfold sliceHost Host.slice
    rw [hopen.1, Buffer.slice, Buffer.slice?_eq]
    rfl
  rw [copySpan, hslice, pure_bind]
  rfl

theorem cutSpan_gives (hopen : h.Open) (c : Clipboard) {a b : Nat} (ha : a ≤ h.text.length)
    (hb : b ≤ h.text.length) (hroom : room → h.Roomy 0) :
    Gives room (cutSpan c h a b) (Host.StepsAgree · (c.cutSpan h a b)) (c.cutSpan h a b) := by
  rw [cutSpan, copySpan_eq hopen, pure_bind, Clipboard.cutSpan]
  cases c.copySpan h a b with
  | error e => exact .of_eq rfl (.refl _)
  | ok c =>
    have hsplice : Command.spliceAll? h.text [.deleteSpan a b] =
        some (h.text.take (min a b) ++ h.text.drop (min a b + (max a b - min a b))) := by
      rw [Command.spliceAll?_cons, Command.deleteSpan, Command.splice?, if_pos (by omega)]
      rfl
    dsimp only
    rw [minus_eq (by omega), pure_bind]
    refine (applyAll_of_splices hsplice hroom).bind fun r hr heq => ?_
    generalize h.applyAll [.deleteSpan a b] = plain at hr heq
    obtain ⟨result, made⟩ := r
    obtain ⟨result', made'⟩ := plain
    obtain ⟨rfl, hagrees⟩ : result = result' ∧ made.Agrees made' := hr
    have hsame : room → made = made' := fun hr => (Prod.mk.inj (heq hr)).2
    cases result with
    | ok applied => exact .value _ rfl ⟨rfl, hagrees, rfl⟩ fun hr => by rw [hsame hr]
    | error e => exact .value _ rfl ⟨rfl, hagrees, rfl⟩ fun hr => by rw [hsame hr]

theorem cut_gives (hopen : h.Open) (c : Clipboard) (m : Motion) (hroom : room → h.Roomy 0) :
    Gives room (cut h c fun d offset => target d offset m)
      (Host.StepsAgree · (h.cut c fun d offset => m.target d offset))
      (h.cut c fun d offset => m.target d offset) := by
  obtain ⟨ha, hb⟩ := h.reach_le m
  rw [cut, Host.cut]
  refine (reach_gives h m fun hr => (hroom hr).1).bind fun range hrange _ => ?_
  rw [hrange]
  refine (cutSpan_gives hopen c ha hb hroom).bind fun r hr heq => ?_
  dsimp only
  rw [conclude_eq, pure_bind]
  obtain ⟨hresult, hagrees, hclipboard⟩ := hr
  have hspan : Host.ResultsAgree (r.1, r.2.1) (_, _) := ⟨hresult, hagrees⟩
  obtain ⟨hlast, hhost⟩ := hspan.conclude
  exact .value _ rfl ⟨hlast, hhost, hclipboard⟩ fun hr => by rw [heq hr]

theorem yank_gives (hopen : h.Open) (c : Clipboard) (m : Motion)
    (hroom : room → Text.byteLength h.text ≤ maxText) :
    Gives room (yank h c fun d offset => target d offset m)
      (· = h.yank c fun d offset => m.target d offset)
      (h.yank c fun d offset => m.target d offset) := by
  refine (reach_gives h m hroom).bind fun range hrange _ => ?_
  rw [hrange]
  dsimp only
  rw [copySpan_eq hopen, pure_bind]
  exact .of_eq rfl rfl

theorem navigate_gives (h : Host) (m : Motion)
    (hroom : room → Text.byteLength h.text ≤ maxText) :
    Gives room (navigate h fun d offset => target d offset m)
      (· = h.navigate fun d offset => m.target d offset)
      (h.navigate fun d offset => m.target d offset) := by
  refine (document_gives h.text hroom).bind ?_
  rintro _ ⟨rfl, hlength⟩ -
  dsimp only
  rw [target_eq hlength, pure_bind]
  exact .of_eq rfl rfl

end Checked

/-! ### Operations -/

/-- How many bytes the operation `op` puts in. -/
def Session.load (s : Session) (op : Operation) (h : Host) : Nat :=
  if !s.enabled || !s.supports h.buffer.language then 0
  else
    match op with
    | .edit e => h.editLoad e s.indentWidth
    | .indent => Change.load (h.document.indent h.currentSelection.start
        { otherEnd := some h.currentSelection.stop, indentWidth := s.indentWidth }).changes
    | _ => 0

/-- **An operation on words** does what `Session.run` does if there is room for what it puts in. -/
theorem Checked.run_gives {room : Prop} {h : Host} (hopen : h.Open) (s : Session) (op : Operation)
    (c : Clipboard) (hroom : room → h.Roomy (s.load op h)) :
    Gives room (run s op h c)
      (fun r => r.1 = (s.run op h c).1 ∧ Host.StepsAgree r.2 (s.run op h c).2)
      (s.run op h c) := by
  unfold Session.load at hroom
  unfold run Session.run
  split
  · exact .of_eq rfl ⟨rfl, .refl _⟩
  · next hon =>
    rw [if_neg hon] at hroom
    have hbytes : room → Text.byteLength h.text ≤ maxText := fun hr =>
      (Nat.le_add_right _ _).trans (hroom hr).1
    cases op with
    | navigate m =>
      refine (navigate_gives h m hbytes).bind fun r hr _ => ?_
      rw [hr]
      exact .of_eq rfl ⟨rfl, .refl _⟩
    | yank m =>
      refine (yank_gives hopen c m hbytes).bind fun r hr _ => ?_
      rw [hr]
      dsimp only
      rcases h.yank c fun d offset => m.target d offset with ⟨_ | _, c⟩
      · exact .of_eq rfl ⟨rfl, .refl _⟩
      · exact .of_eq rfl ⟨rfl, .refl _⟩
    | cut m =>
      refine (cut_gives hopen c m hroom).bind fun r hr heq => ?_
      obtain ⟨hresult, hagrees, hclipboard⟩ := hr
      exact .value _ rfl ⟨congrArg Host.outcomeOf hresult, rfl, hagrees, hclipboard⟩
        fun hr => by rw [heq hr]
    | expand =>
      refine (document_gives h.text hbytes).bind ?_
      rintro _ ⟨rfl, hlength⟩ -
      rw [expansion_eq hlength h.currentSelection_bounds.1, pure_bind]
      exact .of_eq rfl ⟨rfl, .refl _⟩
    | contract =>
      refine (document_gives h.text hbytes).bind fun _ _ _ => ?_
      exact .of_eq rfl ⟨rfl, .refl _⟩
    | edit e =>
      refine (runEdit_gives hopen e s.indentWidth hroom).bind fun r hr heq => ?_
      exact .value _ rfl ⟨hr.1, rfl, hr.2, rfl⟩ fun hr => by rw [heq hr]
    | indent =>
      refine (indentSelection_gives h s.indentWidth hroom).bind fun r hr heq => ?_
      exact .value _ rfl ⟨congrArg Host.outcomeOf hr.1, rfl, hr.2, rfl⟩
        fun hr => by rw [heq hr]

/-! ### How long the text gets -/

namespace Host

variable {h : Host}

theorem byteLength_perform_le (hopen : h.Open) {e : Edit} (hfits : e.Fits h.length)
    (skipsIndent : Bool) (width : Nat) :
    Text.byteLength (h.perform e skipsIndent width).2.text ≤
      Text.byteLength h.text + h.performLoad e skipsIndent width := by
  obtain ⟨mid, commands, hcommands, hsplice⟩ := hfits.changes.exists_makes rfl
  change Command.spliceAll? h.text commands = some mid at hsplice
  obtain ⟨made, hmade, -, rfl⟩ := applyAll_open hopen hsplice
  obtain ⟨last, hperform, -, hmakes⟩ := perform_makes hopen hcommands hsplice skipsIndent width
  have hmid := (Command.spliceAll?_bounds hsplice).1
  have hlast := hmakes.byteLength_le
  rw [hperform]
  simp only [performLoad, hcommands, hmade]
  omega

theorem byteLength_runEdit_le (hopen : h.Open) (e : StructuralEdit) (width : Nat) :
    Text.byteLength (h.runEdit e.at? e.skipsIndent width).2.text ≤
      Text.byteLength h.text + h.editLoad e width := by
  rw [runEdit]
  dsimp only
  split
  · exact Nat.le_add_right _ _
  · next r hat =>
    rw [editLoad_eq hat]
    split
    · exact Nat.le_add_right _ _
    · exact byteLength_perform_le hopen (fits_at? hat) e.skipsIndent width

end Host

/-- An operation makes the text longer by no more than its `load`. -/
theorem Session.byteLength_run_le {h : Host} (hopen : h.Open) (s : Session) (op : Operation)
    {c : Clipboard} (hc : c.fault = none) :
    Text.byteLength (s.run op h c).2.2.1.text ≤ Text.byteLength h.text + s.load op h := by
  unfold load run
  split
  · exact Nat.le_refl _
  · cases op with
    | navigate m => exact Nat.le_refl _
    | yank m =>
      dsimp only
      split <;> exact Nat.le_refl _
    | cut m =>
      obtain ⟨h', c', a, b, hcut, -, -, hsplice⟩ := Host.cut_ok hopen hc m
      simp only [hcut]
      exact (Command.spliceAll?_bounds hsplice).1
    | expand => exact Nat.le_refl _
    | contract =>
      show Text.byteLength (s.expansion.contract h).2.2.text ≤ _
      rcases s.expansion.host_contract h with heq | ⟨sel, heq⟩ <;> rw [heq] <;> exact Nat.le_refl _
    | edit e => exact Host.byteLength_runEdit_le hopen e s.indentWidth
    | indent =>
      obtain ⟨h', hindent, -, hmakes⟩ := Host.indent_ok hopen s.indentWidth
      simp only [hindent]
      exact hmakes.byteLength_le

/-! ### Batches -/

namespace Batch

/-- How many bytes operations put in, one after another: the sum of their `Session.load`. -/
def load (s : Session) (h : Host) (c : Clipboard) : List Operation → Nat
  | [] => 0
  | op :: ops =>
    let (_, s', h', c') := s.run op h c
    s.load op h + load s' h' c' ops

/-- There is room for operations: what they put in keeps the text small enough, and the selection is
at most `n` characters past its end, as every selection in the history was in some text. -/
structure Roomy (n : Nat) (s : Session) (h : Host) (c : Clipboard) (ops : List Operation) : Prop where
  recorded : s.expansion.Recorded
  within : h.Within n
  bytes : Text.byteLength h.text + load s h c ops ≤ maxText

variable {n : Nat} {s s' : Session} {h h' : Host} {c c' : Clipboard} {op : Operation}
  {ops : List Operation}

/-- The first operation has room: its host is `Host.Roomy`. -/
theorem Roomy.first (hroom : Roomy n s h c (op :: ops)) (hn : n + 2 * maxText ≤ maxSigned) :
    h.Roomy (s.load op h) := by
  obtain ⟨-, ⟨hanchor, hcursor⟩, hbytes⟩ := hroom
  have hlength : h.length ≤ Text.byteLength h.text := Text.length_le_byteLength h.text
  rw [load] at hbytes
  dsimp only at hbytes
  exact ⟨by omega, by omega, by omega⟩

/-- The operations behind the first have room after it: they are `Roomy` in what it left. -/
theorem Roomy.rest (hroom : Roomy n s h c (op :: ops)) (hopen : h.Open) (hc : c.fault = none)
    {result : Except Failure Outcome} (hrun : s.run op h c = (result, s', h', c')) :
    Roomy n s' h' c' ops := by
  obtain ⟨hrecorded, hwithin, hbytes⟩ := hroom
  have hsteady := s.run_steady (Host.steady_within n) hrecorded op hwithin c
  have hlonger := s.byteLength_run_le hopen op hc
  rw [hrun] at hsteady hlonger
  rw [load, hrun] at hbytes
  dsimp only at hsteady hlonger hbytes
  exact ⟨hsteady.2, hsteady.1, by omega⟩

/-- **Operations on words, one after another**: `runAll` with `Checked.run`. -/
theorem runAll_gives (hn : n + 2 * maxText ≤ maxSigned) : ∀ {s : Session} {h : Host} {c : Clipboard},
    h.Open → c.fault = none →
    Checked.Gives (Roomy n s h c ops) (runAll Checked.run s h c ops) (fun r => ∃ x, r = .ok x)
      (runAll (m := Id) Session.run s h c ops) := by
  induction ops with
  | nil =>
    intro s h c _ _
    exact .of_eq rfl ⟨_, rfl⟩
  | cons op ops ih =>
    intro s h c hopen hc
    obtain ⟨outcome, s', h', c', hrun, hopen', hc'⟩ := Session.run_ok hopen hc s op
    have hplain : runAll (m := Id) Session.run s h c (op :: ops) =
        runAll (m := Id) Session.run s' h' c' ops := by
      rw [runAll, hrun]
      rfl
    have hfirst := Checked.run_gives hopen s op c fun hroom : Roomy n s h c (op :: ops) =>
      hroom.first hn
    rw [hplain, runAll]
    refine hfirst.bind fun r hr heq => ?_
    rw [hrun] at hr heq
    obtain ⟨result, t, made, clip⟩ := r
    obtain ⟨rfl, rfl, hagrees, rfl⟩ :
      result = .ok outcome ∧ t = s' ∧ made.Agrees h' ∧ clip = c' := hr
    have hsame : Roomy n s h c (op :: ops) → made = h' := fun hroom => by
      cases heq hroom
      rfl
    refine (ih (hagrees.isOpen hopen') hc').weaken (fun hroom => ?_) (fun _ => id) fun hroom => ?_
    · rw [hsame hroom]
      exact hroom.rest hopen hc hrun
    · rw [hsame hroom]

theorem within_host (language : String) (text : List Char) (selection : Nat × Nat) :
    (host language text selection).Within (max selection.1 selection.2) := by
  have hanchor : (host language text selection).buffer.selection.anchor = selection.1 :=
    Selection.anchor_between _ _
  have hcursor : (host language text selection).buffer.selection.cursor = selection.2 := rfl
  rw [Host.Within, hanchor, hcursor]
  omega

theorem run_gives (hn : n + 2 * maxText ≤ maxSigned) (s : Session) (language : String)
    (text : List Char) (selection : Nat × Nat) (ops : List Operation) :
    Checked.Gives (Roomy n s (host language text selection) {} ops)
      (run s language text selection ops) (fun r => ∃ x, r = .ok x)
      (runWith (m := Id) Session.run s language text selection ops) := by
  have hopen : (host language text selection).Open := ⟨rfl, rfl⟩
  refine (runAll_gives hn hopen rfl).bind ?_
  rintro _ ⟨⟨s', h', c'⟩, rfl⟩ heq
  refine .value _ rfl ⟨_, rfl⟩ fun hroom => ?_
  have hplain : runAll (m := Id) Session.run s (host language text selection) {} ops =
      pure (.ok (s', h', c')) := (heq hroom).symm
  rw [runWith, hplain, pure_bind]
  rfl

/-- **A batch returns, or something becomes too large.**  Whatever the text, the selection, the
session with its history and the operations, no operation of a batch fails, and it breaks off only
because a number or a text is too large: no difference is negative, and no index or slice is out of
range.  It does return, with what the run without words gives, if every selection in the history was
in some text, the selection is not near the largest signed number, and the text with all that the run
puts in is no longer than a text may be. -/
theorem run_returns_with_room (s : Session) (language : String) (text : List Char)
    (selection : Nat × Nat) (ops : List Operation) :
    ((∃ r, run s language text selection ops = pure (.ok r)) ∨
      ∃ f, run s language text selection ops = throw f ∧ f.isSize) ∧
    (s.expansion.Recorded → max selection.1 selection.2 + 2 * maxText ≤ maxSigned →
      Text.byteLength text + load s (host language text selection) {} ops ≤ maxText →
      ∃ r, run s language text selection ops = pure (.ok r) ∧
        runWith (m := Id) Session.run s language text selection ops = .ok r) := by
  refine ⟨?_, fun hrecorded hsmall hbytes => ?_⟩
  · have hgives := run_gives (n := 0) (by decide) s language text selection ops
    rcases hgives.cases with ⟨_, hrun, r, rfl⟩ | hsize
    · exact .inl ⟨r, hrun⟩
    · exact .inr hsize
  · have hgives := run_gives hsmall s language text selection ops
    cases hgives with
    | value x hrun hx heq =>
      obtain ⟨r, rfl⟩ := hx
      exact ⟨r, hrun, (heq ⟨hrecorded, within_host language text selection, hbytes⟩).symm⟩
    | outgrown f _ _ hnone =>
      exact absurd ⟨hrecorded, within_host language text selection, hbytes⟩ hnone

/-- A selection far past the end of the text: the word before the end is wrapped, the lines are
indented, and the word is cut. -/
theorem run_returns_with_room_past_the_end :
    let s : Session := { indentWidth := 3 }
    let text := ['(', 'a', '\n', 'b', ')', ' ', 'é']
    let selection := (1000000, 7)
    let ops : List Operation := [.edit (.wrap .parens), .indent, .cut .backward]
    s.expansion.Recorded ∧ max selection.1 selection.2 + 2 * maxText ≤ maxSigned ∧
      Text.byteLength text + load s (host "clojure" text selection) {} ops ≤ maxText ∧
      ∃ r, run s "clojure" text selection ops = pure (.ok r) ∧
        runWith (m := Id) Session.run s "clojure" text selection ops = .ok r := by
  intro s text selection ops
  have hrecorded : s.expansion.Recorded := fun _ hframe => by cases hframe
  have hsmall : max selection.1 selection.2 + 2 * maxText ≤ maxSigned := by decide
  have hbytes : Text.byteLength text + load s (host "clojure" text selection) {} ops ≤ maxText := by
    decide +kernel
  exact ⟨hrecorded, hsmall, hbytes,
    (run_returns_with_room s "clojure" text selection ops).2 hrecorded hsmall hbytes⟩

/-- Three batches that break off: the caret is the largest signed number and would be moved by a pair
of parentheses; a body would be indented by the largest signed number; and a caret beyond it, which
counts from below zero, would be moved back. -/
theorem run_outgrows_word :
    run {} "clojure" ['a'] (maxSigned, maxSigned) [.edit (.wrap .parens)] =
        throw (.signedOverflow maxSigned 2) ∧
      run { indentWidth := maxSigned } "clojure" [' ', '(', 'a', '\n', ' ', 'b', ')'] (5, 5)
        [.indent] = throw (.tooWide (maxSigned + 1)) ∧
      run {} "clojure" ['a', ' ', 'b'] (maxSigned + 1, maxSigned + 1) [.cut .backward] =
        throw (.signedOverflow (-(maxSigned + 1)) (-1)) := by
  decide +kernel

end Batch

end SexpEdit
