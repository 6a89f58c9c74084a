/-
The command line.

`CommandLine.parse` reads the arguments, without the name of the program, into an `Invocation`. The
last value of an option counts. Arguments are read from the left and the first thing that is wrong
is reported, except that commands are looked up after all arguments are read; a request for help or
for the list of commands ends the reading.
-/
import SexpEdit.App
import SexpEdit.Text.Number

namespace SexpEdit

/-- Where a batch takes its text from. -/
inductive Input where
  | stdin
  | file (path : String)
  deriving DecidableEq, Repr

/-- What a batch is asked to do: the `Input` and where to start in it, the language, and the
operations. -/
structure BatchRequest where
  input : Input
  /-- The anchor and the cursor to start with. -/
  selection : Nat × Nat
  /-- The language; by default that of the file. -/
  language : Option String
  commands : List Operation
  /-- Whether the clipboard is to be printed in place of the text. -/
  printClipboard : Bool
  deriving DecidableEq, Repr

/-- What the program is asked to do. -/
inductive Invocation where
  | interactive (path : Option String)
  | batch (request : BatchRequest)
  | listCommands
  | help
  deriving DecidableEq, Repr

/-- Why arguments are refused. -/
inductive UsageError where
  | batchNeedsInput
  | cursorNeedsOffset
  | langNeedsId
  | badOffset (value : String) (error : Text.NumberError)
  | unknownOption (flag : String)
  | noCommands
  | unknownOperation (error : UnknownOperation)
  | tooManyFiles
  deriving DecidableEq, Repr

/-- The text of a `UsageError`. -/
def UsageError.message : UsageError → String
  | batchNeedsInput => "--batch needs a file or -"
  | cursorNeedsOffset => "--cursor needs an offset"
  | langNeedsId => "--lang needs a language id"
  | badOffset value error => "invalid offset '" ++ value ++ "': " ++ error.message
  | unknownOption flag => "unknown option " ++ flag
  | noCommands => "--batch needs at least one command"
  | unknownOperation error => error.message
  | tooManyFiles => "expected at most one file"

namespace CommandLine

/-- How `program` is called, with its options. -/
def usage (program : String) : String :=
  String.intercalate "\n" [
    "Usage:",
    "  " ++ program ++ " [FILE]                     edit FILE in the terminal",
    "  " ++ program ++ " --batch FILE|- [OPTIONS] COMMAND...",
    "                                       run commands over FILE (or stdin) and print the result",
    "  " ++ program ++ " --list-commands            print every command identifier",
    "",
    "Batch options:",
    "  --cursor N[:M]     initial cursor, or selection from N to M (default 0)",
    "  --lang ID          language id (default from the file extension, clojure for stdin)",
    "  --print-clipboard  print the clipboard instead of the text",
    "",
    "Commands are identifiers such as paredit.slurpSexpForward; the paredit. prefix is optional."]

/-- Reads an offset by `Text.number`. -/
def offset (value : List Char) : Except UsageError Nat :=
  match Text.number value with
  | .ok n => .ok n
  | .error e => .error (.badOffset (String.ofList value) e)

/-- Reads an anchor and a cursor with a `:` between them, or one offset that is both. -/
def selection (value : List Char) : Except UsageError (Nat × Nat) :=
  match value.dropWhile (· != ':') with
  | [] => (offset value).map fun n => (n, n)
  | _ :: cursor =>
    match offset (value.takeWhile (· != ':')) with
    | .error e => .error e
    | .ok anchor => (offset cursor).map fun cursor => (anchor, cursor)

/-- The arguments read so far; `Parsed.invocation` makes an `Invocation` of them. -/
structure Parsed where
  input : Option Input := none
  selection : Nat × Nat := (0, 0)
  language : Option String := none
  printClipboard : Bool := false
  /-- The arguments that are neither options nor their values, last first. -/
  positionals : List String := []

/-- Looks up commands with `Operation.ofWord?`; the first unknown one is refused. -/
def operations : List String → Except UsageError (List Operation)
  | [] => .ok []
  | s :: rest =>
    match Operation.ofWord? s with
    | .error e => .error (.unknownOperation e)
    | .ok op => (operations rest).map (op :: ·)

/-- The invocation once all arguments are read. -/
def Parsed.invocation (p : Parsed) : Except UsageError Invocation :=
  match p.input, p.positionals.reverse with
  | some _, [] => .error .noCommands
  | some input, words =>
    (operations words).map fun commands =>
      .batch ⟨input, p.selection, p.language, commands, p.printClipboard⟩
  | none, [] => .ok (.interactive none)
  | none, [path] => .ok (.interactive (some path))
  | none, _ => .error .tooManyFiles

/-- Reads arguments on from `p`, what has been read. -/
def parseFrom (p : Parsed) : List String → Except UsageError Invocation
  | [] => p.invocation
  | arg :: rest =>
    if arg = "-h" ∨ arg = "--help" then .ok .help
    else if arg = "--list-commands" then .ok .listCommands
    else if arg = "--batch" then
      match rest with
      | [] => .error .batchNeedsInput
      | value :: rest =>
        parseFrom { p with input := some (if value = "-" then .stdin else .file value) } rest
    else if arg = "--cursor" then
      match rest with
      | [] => .error .cursorNeedsOffset
      | value :: rest =>
        match CommandLine.selection value.toList with
        | .error e => .error e
        | .ok selection => parseFrom { p with selection } rest
    else if arg = "--lang" then
      match rest with
      | [] => .error .langNeedsId
      | value :: rest => parseFrom { p with language := some value } rest
    else if arg = "--print-clipboard" then parseFrom { p with printClipboard := true } rest
    else if ['-', '-'].isPrefixOf arg.toList then .error (.unknownOption arg)
    else parseFrom { p with positionals := arg :: p.positionals } rest

/-- Reads all arguments, see `parseFrom`. -/
def parse (args : List String) : Except UsageError Invocation :=
  parseFrom {} args

end CommandLine

end SexpEdit
