/-
The screen.

The text stands in a box with its title in the upper border; below it are the status line and the
prompt or the line of help. `highlight?` cuts the lines of a text into selected and other pieces;
it gives nothing for a selection that ends before it starts within some line.
-/
import SexpEdit.App

namespace SexpEdit

/-- A part of a line, all of it selected or none of it. -/
structure Piece where
  text : List Char
  selected : Bool
  deriving DecidableEq, Repr

namespace Piece

/-- The pieces of `line`, which starts at `start`; `none` when `s` ends in the line before it
starts there. -/
def ofLine? (s : Selection) (start : Nat) (line : List Char) : Option (List Piece) :=
  let within (offset : Nat) : Nat := min (max offset start) (start + line.length) - start
  let first := within s.start
  let last := within s.stop
  if first = last then some (if line.isEmpty then [] else [⟨line, false⟩])
  else if last < first then none
  else some
    ((if 0 < first then [⟨line.take first, false⟩] else []) ++
      [⟨(line.take last).drop first, true⟩] ++
      if last < line.length then [⟨line.drop last, false⟩] else [])

/-- The pieces of each of some lines, by `ofLine?`, when the first starts at `start`. -/
def ofLines? (s : Selection) (start : Nat) : List (List Char) → Option (List (List Piece))
  | [] => some []
  | l :: ls =>
    match ofLine? s start l, ofLines? s (start + l.length + 1) ls with
    | some ps, some rest => some (ps :: rest)
    | _, _ => none

end Piece

/-- The lines of a text in selected and other pieces. -/
def highlight? (cs : List Char) (s : Selection) : Option (List (List Piece)) :=
  Piece.ofLines? s 0 (Text.lines cs)

/-- The background of a cell. -/
inductive Paint where
  | plain
  | selected
  | status
  deriving DecidableEq, Repr

/-- A character on the screen with its `Paint`. -/
structure Cell where
  char : Char
  paint : Paint := .plain
  deriving DecidableEq, Repr

/-- What is shown, row by row, and where the cursor is. -/
structure Screen where
  rows : List (List Cell)
  cursor : Option (Nat × Nat)
  deriving DecidableEq, Repr

namespace Screen

/-- The `cells` cut to `width`, or filled up to it with `filler`. -/
def fit (width : Nat) (filler : Cell) (cells : List Cell) : List Cell :=
  cells.take width ++ List.replicate (width - cells.length) filler

/-- A text as a row of `Cell`s of one paint. -/
def paintText (paint : Paint) (cs : List Char) : List Cell :=
  cs.map fun c => ⟨c, paint⟩

/-- A row of `cs` over the whole `width` of the screen. -/
def bar (width : Nat) (paint : Paint) (cs : List Char) : List Cell :=
  fit width ⟨' ', paint⟩ (paintText paint cs)

/-- The `Cell`s of a line, with what is selected marked. -/
def lineCells (ps : List Piece) : List Cell :=
  ps.flatMap fun p => paintText (if p.selected then .selected else .plain) p.text

/-- A row of the box: the edge `left`, the inside cut to its width, and the edge `right`. -/
def boxRow (width : Nat) (left right : Char) (filler : Char) (cells : List Cell) : List Cell :=
  (⟨left, .plain⟩ :: (fit (width - 2) ⟨filler, .plain⟩ cells ++ [⟨right, .plain⟩])).take width

/-- A box of a given size with `title` over its upper border and `rows` inside. -/
def box (width height : Nat) (title : List Char) (rows : List (List Cell)) : List (List Cell) :=
  let inside := rows.take (height - 2)
  let blank := List.replicate (height - 2 - inside.length) []
  boxRow width '┌' '┐' '─' (paintText .plain title) ::
    ((inside ++ blank).map (boxRow width '│' '│' ' ') ++ [boxRow width '└' '┘' '─' []])

/-- What is typed at the prompt, after `Operation.family`. -/
def promptText (input : List Char) : List Char :=
  Operation.family.toList ++ input

end Screen

namespace App

/-- Where the cursor is shown in the box, if it is in view. -/
def boxCursor? (a : App) (width height : Nat) : Option (Nat × Nat) :=
  let (line, column) := Text.lineColumn a.buffer.text a.buffer.selection.cursor
  if line < a.scroll then none
  else
    let x := column + 1
    let y := line - a.scroll + 1
    if x < width - 1 && y < height - 1 then some (x, y) else none

/-- Draws the editor on a screen of a given size. The view moves to the cursor first. -/
def draw? (a : App) (width height : Nat) : Option (App × Screen) :=
  let boxHeight := height - 2
  let a := a.scrollToCursor (boxHeight - 2)
  (highlight? a.buffer.text a.buffer.selection).map fun lines =>
    let rows := (lines.drop a.scroll).map Screen.lineCells
    let top := Screen.box width boxHeight a.title.toList rows
    let status := Screen.bar width .status a.statusLine.toList
    match a.prompt with
    | some input =>
      let prompt := Screen.promptText input
      (a, ⟨top ++ [status, Screen.bar width .plain prompt], some (prompt.length, height - 1)⟩)
    | none =>
      (a, ⟨top ++ [status, Screen.bar width .plain a.keyMap.help.toList],
        a.boxCursor? width boxHeight⟩)

end App

end SexpEdit
