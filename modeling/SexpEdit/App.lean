/-
The interactive editor.

`App` is the state behind the screen: a buffer, a session, a clipboard and what is shown below the
text. `App.press` takes a key. Actions that fail leave their message in the status line.

The editor does not write files itself: a step says what text is to be written (`App.Step.written`),
and is told beforehand why a write would fail, if it would.
-/
import SexpEdit.KeyMap
import SexpEdit.Session
import SexpEdit.Text.Blank

namespace SexpEdit

/-- The operation named by the word `s`, with or without the family in front. -/
def Operation.ofWord? (s : String) : Except UnknownOperation Operation :=
  ofId? (if family.toList.isPrefixOf s.toList then s else family ++ s)

/-- The state of the interactive editor. -/
structure App where
  buffer : Buffer
  session : Session := {}
  clipboard : Clipboard := {}
  keyMap : KeyMap := ⟨true⟩
  /-- The file that the text is saved to. -/
  path : Option String := none
  /-- The version of the text that is in the file. -/
  savedVersion : Nat := 0
  status : Option String := none
  /-- What has been typed at the command prompt, while it is open. -/
  prompt : Option (List Char) := none
  /-- The first line shown. -/
  scroll : Nat := 0
  /-- Whether the action before was an attempt to quit with unsaved changes. -/
  quitArmed : Bool := false
  quit : Bool := false

namespace App

/-- An editor on a buffer whose text is in the file. -/
def ofBuffer (buffer : Buffer) (session : Session) (clipboard : Clipboard) (keyMap : KeyMap)
    (path : Option String) : App :=
  { buffer, session, clipboard, keyMap, path, savedVersion := buffer.version }

/-- What an action led to. -/
structure Step where
  app : App
  error : Option String := none
  /-- The text that was written to the file. -/
  written : Option (List Char) := none

/-- Whether there are changes that are not in the file: the text is not at `savedVersion`. -/
def isDirty (a : App) : Bool :=
  a.buffer.version != a.savedVersion

/-- The name of the file, with a mark while the editor `isDirty`. -/
def title (a : App) : String :=
  a.path.getD "*scratch*" ++ if a.isDirty then " [+]" else ""

/-- Whether structural editing is on, off, or not for this language, see `Session.supports`. -/
def mode (a : App) : String :=
  if !a.session.supports a.buffer.language then "paredit n/a"
  else if a.session.enabled then "paredit"
  else "paredit off"

/-- The line at the bottom: language, `mode`, position of the cursor from one on, and the last
message. -/
def statusLine (a : App) : String :=
  let (line, column) := Text.lineColumn a.buffer.text a.buffer.selection.cursor
  " " ++ a.buffer.language ++ " | " ++ a.mode ++ " | " ++ toString (line + 1) ++ ":" ++
    toString (column + 1) ++
      match a.status with
      | some message => " | " ++ message
      | none => ""

/-- Moves the view so that the line of the cursor is among `height` lines. -/
def scrollToCursor (a : App) (height : Nat) : App :=
  let line := (Text.lineColumn a.buffer.text a.buffer.selection.cursor).1
  if line < a.scroll then { a with scroll := line }
  else if 0 < height && a.scroll + height ≤ line then { a with scroll := line + 1 - height }
  else a

/-- Sets the message of the `statusLine`. -/
def say (a : App) (message : String) : App :=
  { a with status := some message }

/-- Sets the selection of the `buffer`. -/
def select (a : App) (s : Selection) : App :=
  { a with buffer := { a.buffer with selection := s } }

/-- Runs `cs` as one undo step, with `Host.applyGrouped`, and then puts the cursor at `cursor`. -/
def change (a : App) (cs : List Command) (cursor : Nat) : Step :=
  match (Host.ofBuffer a.buffer).applyGrouped cs with
  | (.ok _, h) => { app := { a with buffer := h.buffer }.select (.caret cursor) }
  | (.error e, h) => { app := { a with buffer := h.buffer }, error := some e.message }

/-- The selection, moved into the document. -/
def currentSelection (a : App) : Selection :=
  a.buffer.selection.clamp a.buffer.length

/-- Puts `text` in the place of the `currentSelection`, and the caret behind it. -/
def replaceSelection (a : App) (text : List Char) : Step :=
  let s := a.currentSelection
  let cs :=
    (if s.isEmpty then [] else [Command.deleteSpan s.start s.stop]) ++
      if text.isEmpty then [] else [Command.insert s.start text]
  if cs.isEmpty then { app := a } else a.change cs (s.start + text.length)

/-- Takes out the selection, or one character: the one before the cursor when `backward`. -/
def deleteChar (a : App) (backward : Bool) : Step :=
  let s := a.currentSelection
  if !s.isEmpty then a.replaceSelection []
  else if backward then
    if 0 < s.cursor then a.change [.deleteSpan (s.cursor - 1) s.cursor] (s.cursor - 1)
    else { app := a }
  else
    if s.cursor < a.buffer.length then a.change [.deleteSpan s.cursor (s.cursor + 1)] s.cursor
    else { app := a }

/-- Moves the cursor by `m`; the anchor stays where it is when `extend`. -/
def moveCursor (a : App) (m : CursorMove) (extend : Bool) : App :=
  let s := a.buffer.selection
  let cursor := m.target a.buffer.text s
  a.select (if extend then .between s.anchor cursor else .caret cursor)

/-- Runs `op` in the session and says what came of it. Where structural editing is off, deleting
still takes out a character. -/
def runOperation (a : App) (op : Operation) : Step :=
  let (result, session, h, clipboard) := a.session.run op (.ofBuffer a.buffer) a.clipboard
  let a := { a with session, buffer := h.buffer, clipboard }
  match result with
  | .error e => { app := a, error := some e.message }
  | .ok .skipped =>
    match op with
    | .edit (.delete backward) => a.deleteChar backward
    | _ => { app := a.say (op.id ++ " is not available here") }
  | .ok .copied => { app := a.say "Copied" }
  | .ok (.edited false) => { app := a.say (op.id ++ " was not applied") }
  | .ok _ => { app := a }

/-- Saves the text, unless the write fails for the reason `fault`. -/
def save (a : App) (fault : Option String) : Step :=
  match a.path with
  | none => { app := a.say "No file to save to" }
  | some path =>
    match fault with
    | some reason => { app := a, error := some reason }
    | none =>
      { app := { a with savedVersion := a.buffer.version }.say ("Saved " ++ path)
        written := some a.buffer.text }

/-- Quits, but while the editor `isDirty` only at the second time in a row. -/
def requestQuit (a : App) : App :=
  if a.isDirty && !a.quitArmed then
    { a with quitArmed := true }.say "Unsaved changes, press ^Q again to quit"
  else { a with quit := true }

/-- Performs `action`; a write to the file would fail for the reason `fault`. -/
def perform (a : App) (fault : Option String) (action : Action) : Step :=
  let a := if action = .quit then a else { a with quitArmed := false }
  match action with
  | .run op => a.runOperation op
  | .insert c => a.replaceSelection [c]
  | .newline => a.replaceSelection ['\n']
  | .move m extend => { app := a.moveCursor m extend }
  | .deleteBackward => a.deleteChar true
  | .deleteForward => a.deleteChar false
  | .undo =>
    match a.buffer.undo with
    | (true, buffer) => { app := { a with buffer } }
    | (false, _) => { app := a.say "Nothing to undo" }
  | .redo =>
    match a.buffer.redo with
    | (true, buffer) => { app := { a with buffer } }
    | (false, _) => { app := a.say "Nothing to redo" }
  | .paste =>
    match a.clipboard.contents with
    | some text => a.replaceSelection text
    | none => { app := a.say "Clipboard is empty" }
  | .save => a.save fault
  | .quit => { app := a.requestQuit }
  | .toggleStructural =>
    let session := a.session.toggle
    { app := { a with session }.say
        ("Structural editing " ++ if session.enabled then "on" else "off") }
  | .openPrompt => { app := { a with prompt := some [] } }

/-- Takes a key at the command prompt. Enter runs the operation that `input` names. -/
def pressAtPrompt (a : App) (input : List Char) (k : Key) : Step :=
  match k with
  | .escape => { app := { a with prompt := none } }
  | .backspace => { app := { a with prompt := some input.dropLast } }
  | .char c => { app := { a with prompt := some (input ++ [c]) } }
  | .enter =>
    let word := Text.trim input
    let a := { a with prompt := none }
    if word.isEmpty then { app := a }
    else
      match Operation.ofWord? (String.ofList word) with
      | .ok op => a.runOperation op
      | .error u => { app := a, error := some u.message }
  | _ => { app := a }

/-- The step `s` with its failure shown in the `status` line. -/
def Step.reported (s : Step) : Step :=
  match s.error with
  | some message => { s with app := s.app.say message }
  | none => s

/-- Takes the key `k`; a write to the file would fail for the reason `fault`. -/
def press (a : App) (fault : Option String) (k : Chord) : Step :=
  match a.prompt with
  | some input => (a.pressAtPrompt input k.key).reported
  | none =>
    match a.keyMap.resolve? k with
    | some action => ({ a with status := none }.perform fault action).reported
    | none => { app := a }

end App

end SexpEdit
