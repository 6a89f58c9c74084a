/-
Kinds of tokens and nodes.

A token kind names what a run of characters is; a node kind names what a row of tokens and
nodes is. Both live in one type, numbered in the order below, so that a tree stores one tag per
element. Token kinds come first: `Kind.isToken` holds up to `Kind.eof` and fails after it.
-/

namespace SexpEdit

/-- What a token or a node of the tree is. -/
inductive Kind where
  /-- Spaces, tabs, carriage returns and commas. -/
  | whitespace
  | newline
  /-- From a semicolon to the end of the line. -/
  | comment
  | lparen
  | rparen
  | lbracket
  | rbracket
  | lbrace
  | rbrace
  /-- A string with its closing quote. -/
  | string
  /-- A string that lacks its closing quote. -/
  | unterminatedString
  /-- A character literal such as a backslash and a letter. -/
  | char
  /-- A reader prefix: quote, unquote, dereference, metadata, dispatch. -/
  | readerPrefix
  /-- A symbol, keyword or number. -/
  | symbol
  /-- Stands past the last token. -/
  | eof
  | root
  /-- A collection in round brackets. -/
  | list
  /-- A collection in square brackets. -/
  | vector
  /-- A collection in braces. -/
  | map
  /-- A single token that is a form. -/
  | atom
  /-- A reader prefix with the form it applies to. -/
  | prefixed
  /-- A closing delimiter that closes nothing. -/
  | error
  deriving DecidableEq, Repr

namespace Kind

/-- Every kind, in the order of their numbers. -/
def all : List Kind :=
  [whitespace, newline, comment, lparen, rparen, lbracket, rbracket, lbrace, rbrace, string,
    unterminatedString, char, readerPrefix, symbol, eof, root, list, vector, map, atom, prefixed,
    error]

/-- The number of a `Kind`. -/
def code : Kind → Nat
  | whitespace => 0
  | newline => 1
  | comment => 2
  | lparen => 3
  | rparen => 4
  | lbracket => 5
  | rbracket => 6
  | lbrace => 7
  | rbrace => 8
  | string => 9
  | unterminatedString => 10
  | char => 11
  | readerPrefix => 12
  | symbol => 13
  | eof => 14
  | root => 15
  | list => 16
  | vector => 17
  | map => 18
  | atom => 19
  | prefixed => 20
  | error => 21

/-- The kind with a code, see `code`. -/
def ofCode? (n : Nat) : Option Kind :=
  all[n]?

/-- The name a kind is printed by. -/
def name : Kind → String
  | whitespace => "WHITESPACE"
  | newline => "NEWLINE"
  | comment => "COMMENT"
  | lparen => "LPAREN"
  | rparen => "RPAREN"
  | lbracket => "LBRACKET"
  | rbracket => "RBRACKET"
  | lbrace => "LBRACE"
  | rbrace => "RBRACE"
  | string => "STRING"
  | unterminatedString => "UNTERMINATED_STRING"
  | char => "CHAR"
  | readerPrefix => "PREFIX"
  | symbol => "SYMBOL"
  | eof => "EOF"
  | root => "ROOT"
  | list => "LIST"
  | vector => "VECTOR"
  | map => "MAP"
  | atom => "ATOM"
  | prefixed => "PREFIXED"
  | error => "ERROR"

/-- The `Kind` with a `name`. -/
def ofName? (s : String) : Option Kind :=
  all.find? fun k => k.name == s

/-- Token kinds are numbered up to `eof`. -/
def isToken (k : Kind) : Bool :=
  k.code ≤ eof.code

/-- Node kinds are those that are not `isToken`. -/
def isNode (k : Kind) : Bool :=
  !k.isToken

/-- Trivia carries no meaning: blanks, line ends and comments. -/
def isTrivia : Kind → Bool
  | whitespace | newline | comment => true
  | _ => false

/-- The node kinds with delimiters. -/
def isCollection : Kind → Bool
  | list | vector | map => true
  | _ => false

/-- The node kinds that count as forms: collections, atoms and prefixed forms. -/
def isForm : Kind → Bool
  | list | vector | map | atom | prefixed => true
  | _ => false

/-- Whether a `Kind` is an opening delimiter. -/
def isOpener : Kind → Bool
  | lparen | lbracket | lbrace => true
  | _ => false

/-- Whether a `Kind` is a closing delimiter. -/
def isCloser : Kind → Bool
  | rparen | rbracket | rbrace => true
  | _ => false

/-- Whether a `Kind` is a string, with its closing quote or without. -/
def isString : Kind → Bool
  | string | unterminatedString => true
  | _ => false

/-- The closer that pairs with an opener. -/
def closer? : Kind → Option Kind
  | lparen => some rparen
  | lbracket => some rbracket
  | lbrace => some rbrace
  | _ => none

/-- The collection an opener starts. -/
def collection? : Kind → Option Kind
  | lparen => some list
  | lbracket => some vector
  | lbrace => some map
  | _ => none

/-- The closer that ends a collection. -/
def ending? : Kind → Option Kind
  | list => some rparen
  | vector => some rbracket
  | map => some rbrace
  | _ => none

/-- The opening delimiter of a collection; nothing for other kinds. -/
def opening : Kind → List Char
  | list => ['(']
  | vector => ['[']
  | map => ['\x7b']
  | _ => []

/-- The closing delimiter of a collection; nothing for other kinds. -/
def closing : Kind → List Char
  | list => [')']
  | vector => [']']
  | map => ['\x7d']
  | _ => []

end Kind

end SexpEdit
