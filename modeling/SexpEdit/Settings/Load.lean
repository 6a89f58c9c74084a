/-
Loading settings.

The path of the log is expanded when settings are loaded (`expand?`): variables are replaced by
their values, and a tilde at the start by the home directory. A variable is a dollar sign and a
name, or a name in braces, which may have a default after a colon and a hyphen; two dollar signs are
one. When a variable without a default is not set, the path stays as it is.
-/
import SexpEdit.Path
import SexpEdit.Settings

namespace SexpEdit.Settings

/-- The language of a file by its `Path.extension?`. -/
def languageOf? (s : Settings) (path : List Char) : Option (List Char) :=
  (Path.extension? path).bind fun e => (s.extensions.find? fun p => p.1 == e).map Prod.snd

/-- The blocks beyond ASCII that hold punctuation, marks and signs, first and last code point. -/
def signBlocks : List (Nat × Nat) :=
  [(0x80, 0xA9), (0xAB, 0xB1), (0xB4, 0xB4), (0xB6, 0xB8), (0xBB, 0xBB), (0xBF, 0xBF),
    (0xD7, 0xD7), (0xF7, 0xF7), (0x300, 0x36F), (0x2000, 0x206F), (0x20A0, 0x20FF),
    (0x2190, 0x245F), (0x2500, 0x2775), (0x2794, 0x2BFF), (0x3000, 0x3004), (0x3008, 0x3020),
    (0xD800, 0xF8FF), (0xFE00, 0xFE6F), (0x1F000, 0x1F0FF), (0x1F10D, 0x1FAFF)]

/-- Letters, digits and underscores, of which the names of variables are made. -/
def isNameChar (c : Char) : Bool :=
  c.isAlphanum || c == '_' ||
    (127 < c.toNat && signBlocks.all fun (first, last) => c.toNat < first || last < c.toNat)

/-- Splits the inside of braces at the first colon and hyphen. -/
def splitDefault : List Char → List Char × Option (List Char)
  | [] => ([], none)
  | ':' :: '-' :: cs => ([], some cs)
  | c :: cs => (c :: (splitDefault cs).1, (splitDefault cs).2)

/-- The name and the default of `inside`, what braces hold; without a name there is no default
either. -/
def braced (inside : List Char) : List Char × Option (List Char) :=
  match splitDefault inside with
  | ([], _) => (inside, none)
  | split => split

/-- The names of variables that a path may refer to. -/
def variableNames : List Char → List (List Char)
  | [] => []
  | '$' :: '\x7b' :: cs => (braced (cs.takeWhile (· != '\x7d'))).1 :: variableNames cs
  | '$' :: cs => cs.takeWhile isNameChar :: variableNames cs
  | _ :: cs => variableNames cs

/-- Replaces variables, of which there are at most `fuel`. -/
def expandVariables? (env : List Char → Option (List Char)) :
    Nat → List Char → Option (List Char)
  | 0, cs => some cs
  | fuel + 1, cs =>
    let plain := cs.takeWhile (· != '$')
    let go (value rest : List Char) : Option (List Char) :=
      (expandVariables? env fuel rest).map fun tail => plain ++ (value ++ tail)
    match cs.drop plain.length with
    | [] => some plain
    | _ :: '\x7b' :: inner =>
      if inner.contains '\x7d' then
        let inside := inner.takeWhile (· != '\x7d')
        let after := inner.drop (inside.length + 1)
        let (name, default) := braced inside
        match env name, default with
        | some value, _ => go value after
        | none, some value => go value after
        | none, none => none
      else go ['$', '\x7b'] inner
    | _ :: '$' :: after => go ['$'] after
    | _ :: rest =>
      let name := rest.takeWhile isNameChar
      if name.isEmpty then go ['$'] rest
      else
        match env name with
        | some value => go value (rest.drop name.length)
        | none => none

/-- Replaces a tilde that stands alone or before a slash by `home`, the home directory. -/
def expandTilde (home : List Char) : List Char → List Char
  | ['~'] => home
  | '~' :: '/' :: cs => home ++ '/' :: cs
  | cs => cs

/-- Replaces variables and then the tilde; a tilde that comes out of a variable stays. -/
def expand? (home : List Char) (env : List Char → Option (List Char)) (path : List Char) :
    Option (List Char) :=
  (expandVariables? env (path.length + 1) path).map fun expanded =>
    if expanded.head? = some '~' && path.head? ≠ some '~' then expanded
    else expandTilde home expanded

/-- The settings with the log path expanded by `expand?`, or as it is when that cannot be done. -/
def expandLogFile (home : List Char) (env : List Char → Option (List Char)) (s : Settings) :
    Settings :=
  { s with logFile := s.logFile.map fun path => (expand? home env path).getD path }

/-- Why settings cannot be had. -/
inductive LoadError where
  | unreadable
  | malformed
  deriving DecidableEq, Repr

/-- What stands at the path of the settings. -/
inductive Source where
  | missing
  | unreadable
  | text (chars : List Char)
  deriving DecidableEq, Repr

/-- Loads the settings; there may be none. -/
def load (home : List Char) (env : List Char → Option (List Char)) :
    Source → Except LoadError (Option Settings)
  | .missing => .ok none
  | .unreadable => .error .unreadable
  | .text cs =>
    match parse? cs with
    | none => .error .malformed
    | some s => .ok (some (s.expandLogFile home env))

/-- The settings that `load` gives, or the defaults when there are none. -/
def loadOrDefault (home : List Char) (env : List Char → Option (List Char)) (source : Source) :
    Except LoadError Settings :=
  (load home env source).map fun s => s.getD {}

end SexpEdit.Settings
