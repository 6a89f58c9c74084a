/-
Whole numbers in text.

A number is an optional plus sign and one or more decimal digits, and is less than 2^64. Reading
stops at the first thing that is wrong: a character that is no digit, or a digit that takes the
number past its limit.
-/

namespace SexpEdit.Text

/-- Why a text is no number, see `number`. -/
inductive NumberError where
  | empty
  | invalidDigit
  | tooLarge
  deriving DecidableEq, Repr

/-- The text of a `NumberError`. -/
def NumberError.message : NumberError → String
  | empty => "cannot parse integer from empty string"
  | invalidDigit => "invalid digit found in string"
  | tooLarge => "number too large to fit in target type"

/-- The value of a decimal digit. -/
def digit? (c : Char) : Option Nat :=
  if c.isDigit then some (c.toNat - '0'.toNat) else none

/-- Reads on with `n` read so far. -/
def numberFrom (n : Nat) : List Char → Except NumberError Nat
  | [] => .ok n
  | c :: cs =>
    match digit? c with
    | none => .error .invalidDigit
    | some d => if 10 * n + d < 2 ^ 64 then numberFrom (10 * n + d) cs else .error .tooLarge

/-- Reads a decimal number with an optional plus in front, see `numberFrom`. -/
def number : List Char → Except NumberError Nat
  | [] => .error .empty
  | ['+'] => .error .invalidDigit
  | '+' :: cs => numberFrom 0 cs
  | cs => numberFrom 0 cs

end SexpEdit.Text
