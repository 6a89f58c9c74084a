/-
Lines and columns.

A line ends before a line feed or with the text. Lines and columns are counted from zero, and a
column is a number of characters. `lineColumn` takes an offset to its line and column, `offsetOf`
goes back; a column past the end of its line means the end of the line.
-/

namespace SexpEdit.Text

/-- The offsets just after each line feed, when the text starts at `offset`. -/
def startsAfter (offset : Nat) : List Char → List Nat
  | [] => []
  | c :: cs =>
    if c = '\n' then (offset + 1) :: startsAfter (offset + 1) cs
    else startsAfter (offset + 1) cs

/-- Where the lines of a text start, see `startsAfter`. -/
def lineStarts (cs : List Char) : List Nat :=
  0 :: startsAfter 0 cs

/-- The line that holds `offset`, given by `starts` where the lines start. -/
def lineOf (starts : List Nat) (offset : Nat) : Nat :=
  (starts.takeWhile (· ≤ offset)).length - 1

/-- Where a line starts, given the `lineStarts`. -/
def startOf (starts : List Nat) (line : Nat) : Nat :=
  starts[line]?.getD 0

/-- The lines of a text without their line feeds; there is always a last one. -/
def lines : List Char → List (List Char)
  | [] => [[]]
  | c :: cs =>
    if c = '\n' then [] :: lines cs
    else
      match lines cs with
      | [] => [[c]]
      | l :: ls => (c :: l) :: ls

/-- The offset of a column in a line, when the first of the lines starts at `start`. -/
def offsetIn (start column : Nat) : List (List Char) → Nat → Option Nat
  | [], _ => none
  | l :: _, 0 => some (start + min column l.length)
  | l :: ls, line + 1 => offsetIn (start + l.length + 1) column ls line

/-- The offset of `column` in `line`, cut to the line; the end of the text when there is no such
line. -/
def offsetOf (cs : List Char) (line column : Nat) : Nat :=
  (offsetIn 0 column (lines cs) line).getD cs.length

/-- The line and column after some characters, when they start at `place`. -/
def advance (place : Nat × Nat) : List Char → Nat × Nat
  | [] => place
  | c :: cs => advance (if c = '\n' then (place.1 + 1, 0) else (place.1, place.2 + 1)) cs

/-- The line and column of `offset`, by `advance`; past the end it is that of the end. -/
def lineColumn (cs : List Char) (offset : Nat) : Nat × Nat :=
  advance (0, 0) (cs.take offset)

end SexpEdit.Text
