/-
Numbers, dates and times of TOML.

`integer?` reads a whole number: decimal with a sign and no leading zero, or hexadecimal, octal or
binary; underscores stand between digits. `isFloat` and `isDateTime` recognise the other scalars,
whose value nothing needs.
-/
import SexpEdit.Toml.Quoted

namespace SexpEdit.Toml

/-- Whether digits with underscores between them are well formed for the class `isDigit`. -/
def isDigitRun (isDigit : Char → Bool) : List Char → Bool
  | [] => false
  | [c] => isDigit c
  | c :: '_' :: cs => isDigit c && isDigitRun isDigit cs
  | c :: cs => isDigit c && isDigitRun isDigit cs

/-- The value of the digits `cs` in `base`; underscores are passed over. -/
def digitsValue (base : Nat) (cs : List Char) : Nat :=
  cs.foldl (fun n c => match hexDigit? c with
    | some d => base * n + d
    | none => n) 0

/-- Whether `c` is a digit of `base`, up to sixteen. -/
def isDigitOf (base : Nat) (c : Char) : Bool :=
  (hexDigit? c).any (· < base)

/-- The value of digits in a base, see `digitsValue`. -/
def natural? (base : Nat) (cs : List Char) : Option Nat :=
  if isDigitRun (isDigitOf base) cs then some (digitsValue base cs) else none

/-- Whether decimal digits have no leading zero. -/
def isDecimal (cs : List Char) : Bool :=
  isDigitRun Char.isDigit cs &&
    match cs with
    | '0' :: _ :: _ => false
    | _ => true

/-- Whether a text starts with a minus, and what follows its sign. -/
def sign : List Char → Bool × List Char
  | '+' :: cs => (false, cs)
  | '-' :: cs => (true, cs)
  | cs => (false, cs)

/-- Reads an integer: in decimal with a sign, or in base 16, 8 or 2 by `natural?`. -/
def integer? (cs : List Char) : Option Int :=
  match cs with
  | '0' :: 'x' :: ds => (natural? 16 ds).map Int.ofNat
  | '0' :: 'o' :: ds => (natural? 8 ds).map Int.ofNat
  | '0' :: 'b' :: ds => (natural? 2 ds).map Int.ofNat
  | _ =>
    let (negative, ds) := sign cs
    if isDecimal ds then
      some (if negative then -(digitsValue 10 ds : Int) else digitsValue 10 ds)
    else none

/-- Whether text is the exponent of a number, from its letter on. -/
def isExponent : List Char → Bool
  | 'e' :: cs => isDigitRun Char.isDigit (sign cs).2
  | 'E' :: cs => isDigitRun Char.isDigit (sign cs).2
  | _ => false

/-- Whether text is a number that is not whole, or infinity, or not a number. -/
def isFloat (cs : List Char) : Bool :=
  let ds := (sign cs).2
  let part := ds.takeWhile fun c => c.isDigit || c == '_'
  let rest := ds.drop part.length
  ds == ['i', 'n', 'f'] || ds == ['n', 'a', 'n'] ||
    isDecimal part &&
      match rest with
      | '.' :: fraction =>
        let digits := fraction.takeWhile fun c => c.isDigit || c == '_'
        let tail := fraction.drop digits.length
        isDigitRun Char.isDigit digits && (tail.isEmpty || isExponent tail)
      | _ => isExponent rest

/-- Two digits at the start of a text, and the rest. -/
def twoDigits? : List Char → Option (Nat × List Char)
  | a :: b :: cs =>
    if a.isDigit && b.isDigit then some (digitsValue 10 [a, b], cs) else none
  | _ => none

/-- How many days `month` of `year` has. -/
def daysIn (year month : Nat) : Nat :=
  match month with
  | 2 => if year % 4 = 0 && (year % 100 ≠ 0 || year % 400 = 0) then 29 else 28
  | 4 | 6 | 9 | 11 => 30
  | _ => 31

/-- What follows a date, whose day has to be one of `daysIn` its month. -/
def date? (cs : List Char) : Option (List Char) :=
  match twoDigits? cs with
  | none => none
  | some (century, cs) =>
    match twoDigits? cs with
    | some (year, '-' :: cs) =>
      match twoDigits? cs with
      | some (month, '-' :: cs) =>
        match twoDigits? cs with
        | some (day, cs) =>
          if 1 ≤ month && month ≤ 12 && 1 ≤ day && day ≤ daysIn (100 * century + year) month then
            some cs
          else none
        | none => none
      | _ => none
    | _ => none

/-- Reads the seconds of a time and their fraction, if they are there. -/
def seconds? : List Char → Option (List Char)
  | ':' :: cs =>
    match twoDigits? cs with
    | none => none
    | some (second, cs) =>
      if 60 < second then none
      else match cs with
        | '.' :: cs =>
          let digits := cs.takeWhile Char.isDigit
          if digits.isEmpty then none else some (cs.drop digits.length)
        | cs => some cs
  | cs => some cs

/-- What follows the hour and the minute of a time. -/
def hourMinute? (cs : List Char) : Option (List Char) :=
  match twoDigits? cs with
  | some (hour, ':' :: cs) =>
    match twoDigits? cs with
    | some (minute, cs) => if hour < 24 && minute < 60 then some cs else none
    | none => none
  | _ => none

/-- What follows a time, see `hourMinute?`. -/
def time? (cs : List Char) : Option (List Char) :=
  (hourMinute? cs).bind seconds?

/-- Whether text is an offset from universal time, or nothing. -/
def isZone : List Char → Bool
  | [] => true
  | ['Z'] | ['z'] => true
  | '+' :: cs | '-' :: cs => hourMinute? cs == some []
  | _ => false

/-- Whether text is a date, a time, or both. -/
def isDateTime (cs : List Char) : Bool :=
  time? cs == some [] ||
    match date? cs with
    | some [] => true
    | some (c :: cs) =>
      (c == 'T' || c == 't' || c == ' ') && (time? cs).any isZone
    | none => false

/-- Characters of numbers, dates and times. -/
def isWordChar (c : Char) : Bool :=
  c.isAlphanum || c == '+' || c == '-' || c == '_' || c == '.' || c == ':'

/-- The word at the start of a text. A date and a time may have one space between them. -/
def scalarWord (cs : List Char) : List Char :=
  let word := cs.takeWhile isWordChar
  match date? word, cs.drop word.length with
  | some [], ' ' :: rest =>
    match twoDigits? rest with
    | some _ => word ++ ' ' :: rest.takeWhile isWordChar
    | none => word
  | _, _ => word

end SexpEdit.Toml
