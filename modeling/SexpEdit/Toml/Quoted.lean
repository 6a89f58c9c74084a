/-
Strings and keys of TOML, both ways.

There are four ways to write a string: in double quotes, with escapes, or in single quotes, without,
and each of them on one line or on several between tripled quotes. `renderString` takes the first of
them that needs no escape, and double quotes when all of them do. `readString?` reads any of them
and gives the unread rest.

A key is bare when it is made of ASCII letters, digits, underscores and hyphens.
-/

namespace SexpEdit.Toml

/-- Control characters other than tab; they are never written as they are, but for line feeds in
strings of several lines. -/
def isControl (c : Char) : Bool :=
  (c.toNat < 32 && c != '\t') || c.toNat == 127

/-- Whether a character may stand in a key without quotes, see `renderKey`. -/
def isBare (c : Char) : Bool :=
  c.isAlphanum || c == '_' || c == '-'

/-- The length of the longest run of a character, when `run` of them end just before. -/
def longestRun (c : Char) (run : Nat) : List Char → Nat
  | [] => run
  | d :: cs => if d = c then longestRun c (run + 1) cs else max run (longestRun c 0 cs)

/-- A way to write a string. -/
inductive Style where
  | basic
  | literal
  | longBasic
  | longLiteral
  deriving DecidableEq, Repr

/-- The first way to write the string `cs` that needs no escape, or the double quotes that allow for
one. -/
def Style.of (cs : List Char) : Style :=
  let codes := cs.any fun c => isControl c && c != '\n'
  let slash := cs.contains '\\'
  let newline := cs.contains '\n'
  let single := longestRun '\'' 0 cs
  let double := longestRun '"' 0 cs
  if !codes && !slash && double = 0 && !newline then .basic
  else if !codes && single = 0 && !newline then .literal
  else if !codes && !slash && double ≤ 2 then .longBasic
  else if !codes && single ≤ 2 then .longLiteral
  else if newline then .longBasic
  else .basic

/-- The code point `n` in upper-case hexadecimal with at least four digits. -/
def hexCode (n : Nat) : List Char :=
  let digits := (Nat.toDigits 16 n).map Char.toUpper
  List.replicate (4 - digits.length) '0' ++ digits

/-- The character `c` of an escaped string. -/
def escapeChar (c : Char) : List Char :=
  if c == '\x08' then ['\\', 'b']
  else if c == '\t' then ['\\', 't']
  else if c == '\n' then ['\\', 'n']
  else if c == '\x0c' then ['\\', 'f']
  else if c == '\r' then ['\\', 'r']
  else if c == '"' then ['\\', '"']
  else if c == '\\' then ['\\', '\\']
  else if isControl c then ['\\', 'u'] ++ hexCode c.toNat
  else [c]

/-- The body of an escaped string of several lines, when `run` quotes end just before: line feeds
stay, and so do quotes but for every third in a row. -/
def escapeLong (run : Nat) : List Char → List Char
  | [] => []
  | '\n' :: cs => '\n' :: escapeLong 0 cs
  | '"' :: cs => if run < 2 then '"' :: escapeLong (run + 1) cs else '\\' :: '"' :: escapeLong 0 cs
  | c :: cs => escapeChar c ++ escapeLong 0 cs

/-- A string of several lines starts on a line of its own when it has a line feed. -/
def firstLine (cs : List Char) : List Char :=
  if cs.contains '\n' then ['\n'] else []

/-- Writes a string in the `Style` that suits it. -/
def renderString (cs : List Char) : List Char :=
  match Style.of cs with
  | .basic => '"' :: (cs.flatMap escapeChar ++ ['"'])
  | .literal => '\'' :: (cs ++ ['\''])
  | .longBasic => ['"', '"', '"'] ++ firstLine cs ++ escapeLong 0 cs ++ ['"', '"', '"']
  | .longLiteral => ['\'', '\'', '\''] ++ firstLine cs ++ cs ++ ['\'', '\'', '\'']

/-- Writes a key, without quotes if all its characters are `isBare`. -/
def renderKey (cs : List Char) : List Char :=
  if !cs.isEmpty && cs.all isBare then cs
  else
    let codes := cs.any isControl
    if !codes && !cs.contains '\\' && !cs.contains '"' then '"' :: (cs.flatMap escapeChar ++ ['"'])
    else if !codes && !cs.contains '\'' then '\'' :: (cs ++ ['\''])
    else '"' :: (cs.flatMap escapeChar ++ ['"'])

/-- Where in an escape the reading of a string stands. -/
inductive Escape where
  | none
  | slash
  /-- Before `left + 1` more digits of a code point, with the digits so far worth `value`. -/
  | hex (left value : Nat)
  /-- In blanks after a backslash, before the line feed that has to come. -/
  | gap
  /-- In blanks that are dropped. -/
  | skip
  deriving DecidableEq, Repr

/-- The character of a one-letter escape. -/
def shortEscape? : Char → Option Char
  | 'b' => some '\x08'
  | 't' => some '\t'
  | 'n' => some '\n'
  | 'f' => some '\x0c'
  | 'r' => some '\r'
  | 'e' => some '\x1b'
  | '"' => some '"'
  | '\\' => some '\\'
  | _ => none

/-- The digits of a code point after the letter of its escape. -/
def codeDigits? : Char → Option Nat
  | 'x' => some 2
  | 'u' => some 4
  | 'U' => some 8
  | _ => none

/-- The value of a hexadecimal digit. -/
def hexDigit? (c : Char) : Option Nat :=
  if c.isDigit then some (c.toNat - '0'.toNat)
  else if 'a' ≤ c && c ≤ 'f' then some (c.toNat - 'a'.toNat + 10)
  else if 'A' ≤ c && c ≤ 'F' then some (c.toNat - 'A'.toNat + 10)
  else none

/-- The character with the code point `n`, if there is one. -/
def charOf? (n : Nat) : Option Char :=
  if n.isValidChar then some (Char.ofNat n) else none

/-- Puts `c` in front of what was read of a string. -/
def prepend (c : Char) : Option (List Char × List Char) → Option (List Char × List Char)
  | some (cs, rest) => some (c :: cs, rest)
  | none => none

/-- Reads the rest of a string in double quotes. -/
def readBasic? : Escape → List Char → Option (List Char × List Char)
  | _, [] => none
  | .none, c :: cs =>
    if c = '"' then some ([], cs)
    else if c = '\\' then readBasic? .slash cs
    else if isControl c then none
    else prepend c (readBasic? .none cs)
  | .slash, c :: cs =>
    match shortEscape? c with
    | some d => prepend d (readBasic? .none cs)
    | none =>
      match codeDigits? c with
      | some n => readBasic? (.hex (n - 1) 0) cs
      | none => none
  | .hex left value, c :: cs =>
    match hexDigit? c with
    | none => none
    | some d =>
      match left with
      | 0 =>
        match charOf? (16 * value + d) with
        | some e => prepend e (readBasic? .none cs)
        | none => none
      | left + 1 => readBasic? (.hex left (16 * value + d)) cs
  | .gap, _ => none
  | .skip, _ => none

/-- Whether a text starts with a blank or a line end. -/
def startsBlank : List Char → Bool
  | c :: _ => c == ' ' || c == '\t' || c == '\n' || c == '\r'
  | [] => false

/-- The quotes `q` that may stand just before the closing three of a string of several lines. -/
def closing (q : Char) : List Char → List Char × List Char
  | c :: d :: cs => if c = q then if d = q then ([q, q], cs) else ([q], d :: cs) else ([], c :: d :: cs)
  | [c] => if c = q then ([q], []) else ([], [c])
  | [] => ([], [])

/-- Reads the rest of a string of several lines in double quotes. -/
def readLongBasic? : Escape → List Char → Option (List Char × List Char)
  | _, [] => none
  | .none, '"' :: '"' :: '"' :: cs => some (closing '"' cs)
  | .none, '\r' :: '\n' :: cs => prepend '\r' (prepend '\n' (readLongBasic? .none cs))
  | .none, c :: cs =>
    if c = '\\' then readLongBasic? .slash cs
    else if isControl c && c != '\n' then none
    else prepend c (readLongBasic? .none cs)
  | .slash, c :: cs =>
    match shortEscape? c with
    | some d => prepend d (readLongBasic? .none cs)
    | none =>
      match codeDigits? c with
      | some n => readLongBasic? (.hex (n - 1) 0) cs
      | none =>
        if c = '\n' then readLongBasic? (if startsBlank cs then .skip else .none) cs
        else if c = ' ' || c = '\t' || c = '\r' then readLongBasic? .gap cs
        else none
  | .hex left value, c :: cs =>
    match hexDigit? c with
    | none => none
    | some d =>
      match left with
      | 0 =>
        match charOf? (16 * value + d) with
        | some e => prepend e (readLongBasic? .none cs)
        | none => none
      | left + 1 => readLongBasic? (.hex left (16 * value + d)) cs
  | .gap, c :: cs =>
    if c = '\n' then readLongBasic? (if startsBlank cs then .skip else .none) cs
    else if c = ' ' || c = '\t' || c = '\r' then readLongBasic? .gap cs
    else none
  | .skip, _ :: cs => readLongBasic? (if startsBlank cs then .skip else .none) cs

/-- Reads the rest of a string in single quotes. -/
def readLiteral? : List Char → Option (List Char × List Char)
  | [] => none
  | c :: cs =>
    if c = '\'' then some ([], cs)
    else if isControl c then none
    else prepend c (readLiteral? cs)

/-- Reads the rest of a string of several lines in single quotes. -/
def readLongLiteral? : List Char → Option (List Char × List Char)
  | [] => none
  | '\'' :: '\'' :: '\'' :: cs => some (closing '\'' cs)
  | '\r' :: '\n' :: cs => prepend '\r' (prepend '\n' (readLongLiteral? cs))
  | c :: cs => if isControl c && c != '\n' then none else prepend c (readLongLiteral? cs)

/-- Drops the line end right after the opening quotes of a string of several lines. -/
def dropFirstLine : List Char → List Char
  | '\n' :: cs => cs
  | '\r' :: '\n' :: cs => cs
  | cs => cs

/-- Reads a string of any style. -/
def readString? : List Char → Option (List Char × List Char)
  | '"' :: '"' :: '"' :: cs => readLongBasic? .none (dropFirstLine cs)
  | '"' :: cs => readBasic? .none cs
  | '\'' :: '\'' :: '\'' :: cs => readLongLiteral? (dropFirstLine cs)
  | '\'' :: cs => readLiteral? cs
  | _ => none

/-- Reads a bare or quoted key. -/
def readSimpleKey? : List Char → Option (List Char × List Char)
  | '"' :: cs => readBasic? .none cs
  | '\'' :: cs => readLiteral? cs
  | cs =>
    let key := cs.takeWhile isBare
    if key.isEmpty then none else some (key, cs.drop key.length)

end SexpEdit.Toml
