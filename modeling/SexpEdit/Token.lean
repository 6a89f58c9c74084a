/-
Tokens.

A token is a kind and the characters it covers. Offsets are not stored: they follow from the
lengths of the tokens before it, counted in characters (`List.length`) or in bytes
(`Text.byteLength`).
-/
import SexpEdit.Kind

namespace SexpEdit

/-- The number of bytes of a text in UTF-8. -/
def Text.byteLength : List Char → Nat
  | [] => 0
  | c :: cs => c.utf8Size + byteLength cs

/-- A run of characters and what it is. -/
structure Token where
  kind : Kind
  text : List Char
  deriving DecidableEq, Repr

/-- Tokens with the byte span each covers when the first starts at `start`. -/
def Token.spansFrom (start : Nat) : List Token → List (Token × Nat × Nat)
  | [] => []
  | t :: ts =>
    let stop := start + Text.byteLength t.text
    (t, start, stop) :: spansFrom stop ts

end SexpEdit
