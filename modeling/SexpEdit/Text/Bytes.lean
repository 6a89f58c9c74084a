/-
Texts by bytes.

In UTF-8 a character takes one to four bytes, so a byte offset may fall inside a character.
`byteStarts` is the table of the byte offsets where the characters of a text start, closed by the
byte length; `byteOffset` finds one of them by going through the characters. `byteSlice?` cuts a text
at two byte offsets, and gives nothing when they are in the wrong order or when one of them is not
between characters.
-/
import SexpEdit.Token

namespace SexpEdit.Text

/-- The byte offset of every character, when the text starts at byte `start`. -/
def charStarts (start : Nat) : List Char → List Nat
  | [] => []
  | c :: cs => start :: charStarts (start + c.utf8Size) cs

/-- The byte offset of every character, and the byte length at the end. -/
def byteStarts (start : Nat) : List Char → List Nat
  | [] => [start]
  | c :: cs => start :: byteStarts (start + c.utf8Size) cs

theorem length_byteStarts (start : Nat) (cs : List Char) :
    (byteStarts start cs).length = cs.length + 1 := by
  induction cs generalizing start with
  | nil => rfl
  | cons c cs ih => rw [byteStarts, List.length_cons, ih, List.length_cons]

theorem lt_length_byteStarts {start i : Nat} {cs : List Char} (h : i ≤ cs.length) :
    i < (byteStarts start cs).length := by
  rw [length_byteStarts]
  exact Nat.lt_succ_of_le h

/-- The byte offset of a character offset; past the end it is the `byteLength`. -/
def byteOffset (cs : List Char) (offset : Nat) : Nat :=
  (charStarts 0 cs)[offset]?.getD (byteLength cs)

/-- Parts a text at a byte offset; `none` when the offset is inside a character or past the end. -/
def splitByte? : List Char → Nat → Option (List Char × List Char)
  | cs, 0 => some ([], cs)
  | [], _ + 1 => none
  | c :: cs, n + 1 =>
    if c.utf8Size ≤ n + 1 then
      match splitByte? cs (n + 1 - c.utf8Size) with
      | some (before, after) => some (c :: before, after)
      | none => none
    else none

/-- The text between the byte offsets `start` and `stop`; `none` when they are in the wrong order or
one of them is not between characters. -/
def byteSlice? (cs : List Char) (start stop : Nat) : Option (List Char) :=
  if start ≤ stop then
    match splitByte? cs start with
    | some (_, after) =>
      match splitByte? after (stop - start) with
      | some (inside, _) => some inside
      | none => none
    | none => none
  else none

end SexpEdit.Text
