/-
Reading TOML.

`Toml.read?` takes the text of a document to its entries, or to nothing when something is wrong
with it. Line by line a document is blank, a header, or a key with a value; values go on over
several lines only inside brackets, braces and tripled quotes.
-/
import SexpEdit.Toml.Scalar
import SexpEdit.Toml.Value

namespace SexpEdit.Toml

/-- Drops spaces and tabs. -/
def dropBlanks (cs : List Char) : List Char :=
  cs.dropWhile fun c => c == ' ' || c == '\t'

/-- Drops a comment up to the line's end; `none` when it holds a control character. -/
def dropComment? : List Char → Option (List Char)
  | '#' :: cs =>
    let comment := cs.takeWhile fun c => c != '\n' && c != '\r'
    if comment.any isControl then none else some (cs.drop comment.length)
  | cs => some cs

/-- Drops what may stand after the last thing on a line, and the line's end. -/
def endLine? (cs : List Char) : Option (List Char) :=
  match dropComment? (dropBlanks cs) with
  | some [] => some []
  | some ('\n' :: cs) => some cs
  | some ('\r' :: '\n' :: cs) => some cs
  | _ => none

/-- Drops blanks, comments and line ends, at most `fuel` of the latter. -/
def dropLines? : Nat → List Char → Option (List Char)
  | 0, cs => some cs
  | fuel + 1, cs =>
    match dropComment? (dropBlanks cs) with
    | some ('\n' :: cs) => dropLines? fuel cs
    | some ('\r' :: '\n' :: cs) => dropLines? fuel cs
    | result => result

/-- Drops all blanks, comments by `dropComment?`, and line ends. -/
def dropSpace? (cs : List Char) : Option (List Char) :=
  dropLines? (cs.length + 1) cs

/-- Reads a dotted key of at most `fuel` parts. -/
def readKeyParts? : Nat → List Char → Option (List (List Char) × List Char)
  | 0, _ => none
  | fuel + 1, cs =>
    match readSimpleKey? (dropBlanks cs) with
    | none => none
    | some (key, cs) =>
      match dropBlanks cs with
      | '.' :: cs =>
        match readKeyParts? fuel cs with
        | some (keys, cs) => some (key :: keys, cs)
        | none => none
      | cs => some ([key], cs)

/-- Reads a dotted key and the blanks after it. -/
def readKey? (cs : List Char) : Option (List (List Char) × List Char) :=
  readKeyParts? (cs.length + 1) cs

/-- Reads a key, an equals sign and a value. -/
def readPair? (value? : List Char → Option (Value × List Char)) (cs : List Char) :
    Option (List (List Char) × Value × List Char) :=
  match readKey? cs with
  | some (keys, '=' :: cs) =>
    match value? (dropBlanks cs) with
    | some (v, cs) => some (keys, v, cs)
    | none => none
  | _ => none

/-- Reads the items of an array up to its bracket, at most `fuel` of them. -/
def readItems? (value? : List Char → Option (Value × List Char)) :
    Nat → List Char → Option (List Value × List Char)
  | 0, _ => none
  | fuel + 1, cs =>
    match dropSpace? cs with
    | none => none
    | some (']' :: cs) => some ([], cs)
    | some cs =>
      match value? cs with
      | none => none
      | some (v, cs) =>
        match dropSpace? cs with
        | some (',' :: cs) =>
          match readItems? value? fuel cs with
          | some (vs, cs) => some (v :: vs, cs)
          | none => none
        | some (']' :: cs) => some ([v], cs)
        | _ => none

/-- Reads the pairs of a table in braces up to its brace, at most `fuel` of them, after those read
already. -/
def readPairs? (value? : List Char → Option (Value × List Char)) (es : List Entry) :
    Nat → List Char → Option (List Entry × List Char)
  | 0, _ => none
  | fuel + 1, cs =>
    match dropSpace? cs with
    | none => none
    | some ('\x7d' :: cs) => some (es, cs)
    | some cs =>
      match readPair? value? cs with
      | none => none
      | some (keys, v, cs) =>
        match define? v keys es, dropSpace? cs with
        | some es, some (',' :: cs) => readPairs? value? es fuel cs
        | some es, some ('\x7d' :: cs) => some (es, cs)
        | _, _ => none

/-- Reads a scalar that is not a string. -/
def readScalar? (cs : List Char) : Option (Value × List Char) :=
  let word := scalarWord cs
  let rest := cs.drop word.length
  if word == "true".toList then some (.boolean true, rest)
  else if word == "false".toList then some (.boolean false, rest)
  else
    match integer? word with
    | some n => some (.integer n, rest)
    | none => if isFloat word || isDateTime word then some (.other, rest) else none

/-- Reads a value with brackets and braces nested less than `depth` deep. -/
def readValue? : Nat → List Char → Option (Value × List Char)
  | 0, _ => none
  | depth + 1, cs =>
    match cs with
    | '[' :: cs =>
      (readItems? (readValue? depth) (cs.length + 1) cs).map fun (vs, cs) => (.array vs, cs)
    | '\x7b' :: cs =>
      (readPairs? (readValue? depth) [] (cs.length + 1) cs).map fun (es, cs) =>
        (.table .braces es, cs)
    | '"' :: _ | '\'' :: _ => (readString? cs).map fun (s, cs) => (.string s, cs)
    | _ => readScalar? cs

/-- How deep brackets and braces may be nested. -/
def maxDepth : Nat :=
  80

/-- Reads a header up to its brackets, and does `act` for its last key in the table around it. -/
def readHeader? (brackets : List Char) (act : List Char → List Entry → Option (List Entry))
    (es : List Entry) (cs : List Char) : Option (List (List Char) × List Entry × List Char) :=
  match readKey? cs with
  | none => none
  | some (keys, cs) =>
    if brackets.isPrefixOf cs then
      match keys.getLast?, endLine? (cs.drop brackets.length) with
      | some key, some cs =>
        (inside? (act key) keys.dropLast es).map fun es => (keys, es, cs)
      | _, _ => none
    else none

/-- Reads the lines of a document, at most `fuel` of them, into the table at a path. -/
def readLines? : Nat → List (List Char) → List Entry → List Char → Option (List Entry)
  | 0, _, _, _ => none
  | fuel + 1, path, es, cs =>
    match dropBlanks cs with
    | [] => some es
    | '[' :: '[' :: cs =>
      match readHeader? [']', ']'] openArray? es cs with
      | some (path, es, cs) => readLines? fuel path es cs
      | none => none
    | '[' :: cs =>
      match readHeader? [']'] openTable? es cs with
      | some (path, es, cs) => readLines? fuel path es cs
      | none => none
    | c :: cs =>
      if c = '\n' || c = '\r' || c = '#' then
        match endLine? (c :: cs) with
        | some cs => readLines? fuel path es cs
        | none => none
      else
        match readPair? (readValue? maxDepth) (c :: cs) with
        | none => none
        | some (keys, v, cs) =>
          match inside? (define? v keys) path es, endLine? cs with
          | some es, some cs => readLines? fuel path es cs
          | _, _ => none

/-- Drops the mark that may stand before a text. -/
def dropMark : List Char → List Char
  | c :: cs => if c.toNat = 0xFEFF then cs else c :: cs
  | [] => []

/-- Reads all lines of a file, see `readLines?`. -/
def read? (cs : List Char) : Option (List Entry) :=
  readLines? (cs.length + 1) [] [] (dropMark cs)

end SexpEdit.Toml
