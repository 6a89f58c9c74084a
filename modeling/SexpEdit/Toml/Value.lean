/-
TOML documents as values.

A document is a list of entries, keys with values. Every table remembers how it came to be, since
that decides what may still be added to it: a table is written under one header only, a dotted key
adds values only to a table that dotted keys have made, and a table in braces is closed.

* `Toml.define?` adds a value under a dotted key;
* `Toml.openTable?` and `Toml.openArray?` are what the two kinds of header do;
* `Toml.inside?` does something in the table that a header has named.
-/

namespace SexpEdit.Toml

/-- How a table came to be. -/
inductive Origin where
  /-- It is around a table that a header names. -/
  | implied
  /-- A header names it. -/
  | header
  /-- A dotted key goes through it. -/
  | dotted
  /-- It is written in braces. -/
  | braces
  deriving DecidableEq, Repr

/-- What a key stands for. -/
inductive Value where
  | string (chars : List Char)
  | integer (value : Int)
  | boolean (value : Bool)
  /-- A number that is not whole, or a date or time; nothing here looks into it. -/
  | other
  | array (items : List Value)
  | table (origin : Origin) (entries : List (List Char × Value))
  /-- A table for each header in double brackets; the latest is the one being written. -/
  | tables (earlier : List (List (List Char × Value))) (latest : List (List Char × Value))

/-- A key and what it stands for. -/
abbrev Entry :=
  List Char × Value

/-- The `Value` under a key. -/
def find? (key : List Char) : List Entry → Option Value
  | [] => none
  | (k, v) :: es => if k = key then some v else find? key es

/-- Puts another `Value` under a key that is there. -/
def replace (key : List Char) (value : Value) : List Entry → List Entry
  | [] => []
  | (k, v) :: es => if k = key then (k, value) :: es else (k, v) :: replace key value es

/-- Adds `value` under a dotted key. -/
def define? (value : Value) : List (List Char) → List Entry → Option (List Entry)
  | [], _ => none
  | [key], es =>
    match find? key es with
    | some _ => none
    | none => some (es ++ [(key, value)])
  | key :: keys, es =>
    match find? key es with
    | none => (define? value keys []).map fun sub => es ++ [(key, .table .dotted sub)]
    | some (.table .dotted sub) =>
      (define? value keys sub).map fun sub => replace key (.table .dotted sub) es
    | some (.table .implied sub) =>
      if keys.length = 1 then none
      else (define? value keys sub).map fun sub => replace key (.table .implied sub) es
    | some _ => none

/-- Does `act` in the table at a path. Tables on the way are made where there are none, and of an
array of tables the latest is meant. -/
def inside? (act : List Entry → Option (List Entry)) :
    List (List Char) → List Entry → Option (List Entry)
  | [], es => act es
  | key :: keys, es =>
    match find? key es with
    | none => (inside? act keys []).map fun sub => es ++ [(key, .table .implied sub)]
    | some (.table .braces _) => none
    | some (.table origin sub) =>
      (inside? act keys sub).map fun sub => replace key (.table origin sub) es
    | some (.tables earlier latest) =>
      (inside? act keys latest).map fun latest => replace key (.tables earlier latest) es
    | some _ => none

/-- Starts the table `key` of a header: a new one, or one that was only implied so far. -/
def openTable? (key : List Char) (es : List Entry) : Option (List Entry) :=
  match find? key es with
  | none => some (es ++ [(key, .table .header [])])
  | some (.table .implied sub) => some (replace key (.table .header sub) es)
  | some _ => none

/-- Starts one more table of the array of tables `key`. -/
def openArray? (key : List Char) (es : List Entry) : Option (List Entry) :=
  match find? key es with
  | none => some (es ++ [(key, .tables [] [])])
  | some (.tables earlier latest) => some (replace key (.tables (earlier ++ [latest]) []) es)
  | some _ => none

end SexpEdit.Toml
