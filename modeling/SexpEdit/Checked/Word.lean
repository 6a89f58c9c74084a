/-
Machine arithmetic.

Offsets, widths and counts are kept in machine words.  A word holds the natural numbers up to
`maxWord`; seen as a signed number it holds the integers from `-maxSigned - 1` to `maxSigned`; and a
document has at most `maxText` bytes.  A computation over words breaks off with a `Fault` where a
sum leaves the word, a difference is negative, or an item or a slice is asked for that is not there,
and nothing comes after it.

The functions of `Checked` are those of the same name elsewhere in the project, on words: the plain
ones say what is meant, on numbers of any size, and these are what a batch runs.  The length of a
list is taken to fit in a word.
-/
import SexpEdit.Document
import SexpEdit.Tree.Event

namespace SexpEdit

/-- The largest number that a word holds. -/
def maxWord : Nat :=
  18446744073709551615

/-- The largest number that a word holds as a signed number. -/
def maxSigned : Nat :=
  9223372036854775807

/-- The most bytes that a document may have. -/
def maxText : Nat :=
  4294967295

/-- Why a computation breaks off. -/
inductive Fault where
  /-- A number is taken from a smaller one. -/
  | underflow (a b : Nat)
  /-- A sum is larger than `maxWord`. -/
  | overflow (a b : Nat)
  /-- A signed sum is larger than `maxSigned`, or as far below zero. -/
  | signedOverflow (a b : Int)
  /-- More columns than `maxSigned` are to be filled with spaces. -/
  | tooWide (columns : Nat)
  /-- A document would have more bytes than `maxText`. -/
  | tooLong (bytes : Nat)
  /-- There is no such item in a list. -/
  | noItem (index length : Nat)
  /-- A range is not one of the text. -/
  | noSlice (start stop length : Nat)
  /-- The pieces of a delta are out of order, or not whole characters. -/
  | noDelta
  /-- The events of a text build no tree. -/
  | noTree (e : Tree.BuildError)
  deriving DecidableEq, Repr

/-- Whether a number or a text is too large: the faults that smaller input does not have. -/
def Fault.isSize : Fault → Bool
  | overflow _ _ | signedOverflow _ _ | tooWide _ | tooLong _ => true
  | underflow _ _ | noItem _ _ | noSlice _ _ _ | noDelta | noTree _ => false

/-- A computation that may break off with a `Fault`. -/
abbrev Checked (α : Type) : Type :=
  Except Fault α

namespace Checked

/-- The sum `a + b`, which must be at most `maxWord`. -/
def plus (a b : Nat) : Checked Nat :=
  if a + b ≤ maxWord then pure (a + b) else throw (.overflow a b)

/-- The difference `a - b`, which must not be negative. -/
def minus (a b : Nat) : Checked Nat :=
  if b ≤ a then pure (a - b) else throw (.underflow a b)

/-- The signed number that the bits of the word `n` stand for. -/
def signed (n : Nat) : Int :=
  if n ≤ maxSigned then n else (n : Int) - (maxWord + 1)

/-- The word that the bits of the signed number `z` stand for. -/
def unsigned (z : Int) : Nat :=
  if 0 ≤ z then z.toNat else (z + (maxWord + 1)).toNat

/-- The signed sum `a + b`, which must lie between `-maxSigned - 1` and `maxSigned`. -/
def signedPlus (a b : Int) : Checked Int :=
  if -(maxSigned + 1) ≤ a + b ∧ a + b ≤ maxSigned then pure (a + b)
  else throw (.signedOverflow a b)

/-- The item of `xs` at `i`, which must be one of its places. -/
def item {α : Type} (xs : List α) (i : Nat) : Checked α :=
  match xs[i]? with
  | some x => pure x
  | none => throw (.noItem i xs.length)

/-- The text of `cs` from `start` to `stop`, which must be in order and in the text. -/
def slice (cs : List Char) (start stop : Nat) : Checked (List Char) :=
  if start ≤ stop ∧ stop ≤ cs.length then pure (Text.slice cs start stop)
  else throw (.noSlice start stop cs.length)

end Checked

end SexpEdit
