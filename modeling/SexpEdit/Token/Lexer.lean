/-
From text to tokens.

Each token kind has a rule, and `Kind.matchLength` gives the length of the longest prefix of a
text that its rule matches (zero when it matches none). `Token.first` takes the rule with the
longest match. A character on which no rule starts is a token of its own. `Token.scan` cuts a
whole text into tokens.
-/
import SexpEdit.Text.Blank
import SexpEdit.Token

namespace SexpEdit

namespace Text

/-- Blanks inside a line; a comma counts as one. -/
def isSpacing (c : Char) : Bool :=
  c == ' ' || c == '\t' || c == '\r' || c == ','

/-- Characters that end a symbol wherever they stand. -/
def endsSymbol (c : Char) : Bool :=
  isBlank c || c == ',' || c == '(' || c == ')' || c == '[' || c == ']' || c == '\x7b' ||
    c == '\x7d' || c == '"' || c == ';'

/-- Characters that may stand in a symbol but do not start one. -/
def isMarker (c : Char) : Bool :=
  c == '\'' || c == '\x60' || c == '~' || c == '@' || c == '^' || c == '\\' || c == '#'

/-- Whether a symbol can start with a character: it does not end one and is no marker, see
`isMarker`. -/
def startsSymbol (c : Char) : Bool :=
  !endsSymbol c && !isMarker c

/-- The length of a string's body: plain characters and escape pairs, up to a quote, the end, or
a backslash with nothing after it. -/
def bodyLength : List Char → Nat
  | [] => 0
  | '\\' :: _ :: cs => bodyLength cs + 2
  | c :: cs => if c == '"' || c == '\\' then 0 else bodyLength cs + 1

/-- The length of the longest string, closing quote included, that starts a text. -/
def stringLength : List Char → Nat
  | '"' :: cs =>
    let n := bodyLength cs
    if cs[n]? = some '"' then n + 2 else 0
  | _ => 0

/-- The length of the longest string without its closing quote that starts a text. -/
def openStringLength : List Char → Nat
  | '"' :: cs => bodyLength cs + 1
  | _ => 0

/-- A line end is a line feed, or a carriage return and a line feed. -/
def newlineLength : List Char → Nat
  | '\n' :: _ => 1
  | '\r' :: '\n' :: _ => 2
  | _ => 0

/-- A comment runs from a semicolon `;` up to the line's end. -/
def commentLength : List Char → Nat
  | ';' :: cs => (cs.takeWhile fun c => c != '\r' && c != '\n').length + 1
  | _ => 0

/-- A character literal is a backslash, any character but a line feed, and the letters and digits
after it. -/
def charLength : List Char → Nat
  | '\\' :: c :: cs => if c == '\n' then 0 else (cs.takeWhile Char.isAlphanum).length + 2
  | _ => 0

/-- A reader prefix is one to three punctuation characters. -/
def prefixLength : List Char → Nat
  | '~' :: '@' :: _ => 2
  | '#' :: '?' :: '@' :: _ => 3
  | '#' :: c :: _ => if c == '_' || c == '\'' || c == '?' then 2 else 1
  | '#' :: [] => 1
  | c :: _ => if c == '\'' || c == '\x60' || c == '~' || c == '@' || c == '^' then 1 else 0
  | [] => 0

/-- A symbol runs to the next blank, delimiter, quote or semicolon. -/
def symbolLength : List Char → Nat
  | c :: cs => if startsSymbol c then (cs.takeWhile fun d => !endsSymbol d).length + 1 else 0
  | [] => 0

/-- The length of a token that is the single character `d`. -/
def singleLength (d : Char) : List Char → Nat
  | c :: _ => if c == d then 1 else 0
  | [] => 0

end Text

namespace Kind

open Text

/-- The kinds a scan produces, each by its rule, see `matchLength`. -/
def scanned : List Kind :=
  [whitespace, newline, comment, lparen, rparen, lbracket, rbracket, lbrace, rbrace, string,
    unterminatedString, char, readerPrefix, symbol]

/-- The length of the longest prefix that the rule of a kind matches; zero when there is none. -/
def matchLength : Kind → List Char → Nat
  | whitespace, cs => (cs.takeWhile isSpacing).length
  | newline, cs => newlineLength cs
  | comment, cs => commentLength cs
  | lparen, cs => singleLength '(' cs
  | rparen, cs => singleLength ')' cs
  | lbracket, cs => singleLength '[' cs
  | rbracket, cs => singleLength ']' cs
  | lbrace, cs => singleLength '\x7b' cs
  | rbrace, cs => singleLength '\x7d' cs
  | string, cs => stringLength cs
  | unterminatedString, cs => openStringLength cs
  | char, cs => charLength cs
  | readerPrefix, cs => prefixLength cs
  | symbol, cs => symbolLength cs
  | _, _ => 0

/-- The kind with the longest match among `kinds` and `best`, and its length. -/
def longest (cs : List Char) (best : Kind × Nat) : List Kind → Kind × Nat
  | [] => best
  | k :: kinds =>
    let n := k.matchLength cs
    longest cs (if best.2 < n then (k, n) else best) kinds

end Kind

namespace Token

/-- A character no rule starts on: blank or symbol. -/
def lone (c : Char) : Token :=
  ⟨if Text.isBlank c then .whitespace else .symbol, [c]⟩

/-- The first token of a text that starts with `c`. -/
def first (c : Char) (cs : List Char) : Token :=
  match Kind.longest (c :: cs) (.symbol, 0) Kind.scanned with
  | (_, 0) => lone c
  | (k, n) => ⟨k, (c :: cs).take n⟩

/-- The tokens of a text after its first `n` characters, which the token before covers. -/
def scanAfter : Nat → List Char → List Token
  | _, [] => []
  | n + 1, _ :: cs => scanAfter n cs
  | 0, c :: cs =>
    let t := first c cs
    t :: scanAfter (t.text.length - 1) cs

/-- Cuts a text into tokens, see `scanAfter`. -/
def scan (cs : List Char) : List Token :=
  scanAfter 0 cs

end Token

end SexpEdit
