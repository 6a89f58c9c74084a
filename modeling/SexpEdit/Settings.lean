/-
Settings.

The settings say whether structural editing is on and for which languages, which key map is used,
how far a body is indented, which file extension means which language, and where the log goes. They
are read from a TOML document, in which each of them has a default and unknown keys do not matter,
and written back in a fixed layout.
-/
import SexpEdit.Session
import SexpEdit.Toml.Reader

namespace SexpEdit

/-- The settings of the program; `Settings.parse?` reads them and `Settings.render` writes them. -/
structure Settings where
  enabled : Bool := true
  /-- The languages that structural editing is for. -/
  languages : List (List Char) :=
    ["clojure".toList, "hy".toList, "lisp".toList, "scheme".toList]
  /-- The name of the key map; `none` leaves out the structural bindings. -/
  keyMap : List Char := "original".toList
  indentWidth : Nat := 2
  /-- The language of each file extension, without the dot, in the order of the extensions. -/
  extensions : List (List Char × List Char) :=
    [("cl", "lisp"), ("clj", "clojure"), ("cljc", "clojure"), ("cljs", "clojure"),
      ("edn", "clojure"), ("el", "lisp"), ("hy", "hy"), ("lisp", "lisp"), ("rkt", "scheme"),
      ("scm", "scheme"), ("ss", "scheme")].map fun (e, l) => (e.toList, l.toList)
  logFile : Option (List Char) := none
  deriving DecidableEq, Repr

namespace Settings

/-- Whether one text comes before another: by code points. -/
def before : List Char → List Char → Bool
  | [], [] => false
  | [], _ :: _ => true
  | _ :: _, [] => false
  | a :: as, b :: bs => a.toNat < b.toNat || (a == b && before as bs)

/-- Puts the extension `key` in its place among others, in the order of their keys. -/
def addExtension (key value : List Char) : List (List Char × List Char) → List (List Char × List Char)
  | [] => [(key, value)]
  | (k, v) :: rest =>
    if before key k then (key, value) :: (k, v) :: rest
    else if k = key then (key, value) :: rest
    else (k, v) :: addExtension key value rest

/-- Texts out of values, all of which have to be strings. -/
def texts? : List Toml.Value → Option (List (List Char))
  | [] => some []
  | .string s :: vs => (texts? vs).map (s :: ·)
  | _ :: _ => none

/-- Extensions out of entries, all of which have to be strings. -/
def extensions? : List Toml.Entry → Option (List (List Char × List Char))
  | [] => some []
  | (key, .string s) :: es => (extensions? es).map (addExtension key s)
  | _ :: _ => none

/-- What the entry `key` makes of `default`; `none` when its value is of the wrong type. -/
def field? {α : Type} (es : List Toml.Entry) (key : String) (default : α)
    (decode : Toml.Value → Option α) : Option α :=
  match Toml.find? key.toList es with
  | none => some default
  | some v => decode v

/-- The `Settings` that the entries of a file stand for; what is missing has its default. -/
def ofEntries? (es : List Toml.Entry) : Option Settings := do
  let base : Settings := {}
  let enabled ← field? es "enabled" base.enabled fun
    | .boolean b => some b
    | _ => none
  let languages ← field? es "languages" base.languages fun
    | .array vs => texts? vs
    | _ => none
  let keyMap ← field? es "default_key_map" base.keyMap fun
    | .string s => some s
    | _ => none
  let indentWidth ← field? es "indent_width" base.indentWidth fun
    | .integer (.ofNat n) => if n < UInt64.size then some n else none
    | _ => none
  let extensions ← field? es "extensions" base.extensions fun
    | .table _ es => extensions? es
    | _ => none
  let logFile ← field? es "log_file" base.logFile fun
    | .string s => some (some s)
    | _ => none
  return { enabled, languages, keyMap, indentWidth, extensions, logFile }

/-- Reads `Settings` from the text of a file. -/
def parse? (cs : List Char) : Option Settings :=
  (Toml.read? cs).bind ofEntries?

/-- The `key` and its `value` on a line. -/
def line (key value : List Char) : List Char :=
  key ++ " = ".toList ++ value ++ ['\n']

/-- Writes strings as an array: up to one of them on the same line, more on a line each. -/
def renderTexts (texts : List (List Char)) : List Char :=
  match texts with
  | [] => "[]".toList
  | [s] => '[' :: (Toml.renderString s ++ [']'])
  | _ =>
    "[\n".toList ++ (texts.flatMap fun s => "    ".toList ++ Toml.renderString s ++ ",\n".toList) ++
      [']']

/-- Writes `Settings` as the text of a file, field by field. -/
def render (s : Settings) : List Char :=
  line "enabled".toList (if s.enabled then "true".toList else "false".toList) ++
    line "languages".toList (renderTexts s.languages) ++
    line "default_key_map".toList (Toml.renderString s.keyMap) ++
    line "indent_width".toList (Nat.toDigits 10 s.indentWidth) ++
    (match s.logFile with
      | some path => line "log_file".toList (Toml.renderString path)
      | none => []) ++
    "\n[extensions]\n".toList ++
    s.extensions.flatMap fun (k, v) => line (Toml.renderKey k) (Toml.renderString v)

/-- Whether the structural bindings are in use. -/
def usesDefaultKeyMap (s : Settings) : Bool :=
  s.keyMap != "none".toList

/-- The `Session` that settings ask for. -/
def session (s : Settings) : Session :=
  { enabled := s.enabled
    languages := s.languages.map String.ofList
    indentWidth := s.indentWidth }

end Settings

end SexpEdit
