/-
The program.

`Program.run` says what the program prints and the code it ends with, given its arguments, its
settings and what it reads. What it reads is known from the arguments alone (`Program.input?`), so
that a caller can read it beforehand. Arguments are looked at first, settings next, and the input
last.
-/
import SexpEdit.Batch
import SexpEdit.CommandLine
import SexpEdit.Directory
import SexpEdit.Settings.Load

namespace SexpEdit

/-- What a finished program leaves. -/
structure Report where
  code : Nat
  out : List Char
  err : List Char
  deriving DecidableEq, Repr

namespace Program

/-- The language of text that comes from no file. -/
def scratchLanguage : String :=
  "clojure"

/-- The language of a file whose extension is not known. -/
def unknownLanguage : String :=
  "plaintext"

/-- The language of a file by `Settings.languageOf?`, or `unknownLanguage`. -/
def languageFor (s : Settings) (path : String) : String :=
  match s.languageOf? path.toList with
  | some language => String.ofList language
  | none => unknownLanguage

/-- What the program reads, if it reads anything. -/
def input? (args : List String) : Option Input :=
  match CommandLine.parse args with
  | .ok (.batch request) => some request.input
  | _ => none

/-- The `Report` of a run that succeeded. -/
def success (out : List Char) : Report :=
  ⟨0, out, []⟩

/-- The `Report` of a run in which something failed, with its cause. -/
def failure (what cause : String) : Report :=
  ⟨1, [], ("Error: " ++ what ++ "\n\nCaused by:\n    " ++ cause ++ "\n").toList⟩

/-- The `Report` on arguments that cannot be read, with the `CommandLine.usage`. -/
def refused (name : String) (e : UsageError) : Report :=
  ⟨2, [], ("Error: " ++ e.message ++ "\n" ++ CommandLine.usage name ++ "\n").toList⟩

/-- The `Report` on settings that cannot be loaded. -/
def unloadable : Report :=
  ⟨1, [], "Error: Failed to load config file\n".toList⟩

/-- What failed when the input could not be read. -/
def readFailure : Input → String
  | .stdin => "Failed to read stdin"
  | .file path => "Failed to read " ++ path

/-- Runs a batch over what was read, by `Batch.run`. -/
def runBatch (s : Settings) (request : BatchRequest) (read : Except FileError (List Char)) :
    Checked Report :=
  match read with
  | .error e => return failure (readFailure request.input) e.message
  | .ok text => do
    let language := request.language.getD <|
      match request.input with
      | .stdin => scratchLanguage
      | .file path => languageFor s path
    match ← Batch.run s.session language text request.selection request.commands with
    | .error e => return failure (e.operation.id ++ " failed") e.failure.message
    | .ok result =>
      return success (if request.printClipboard then result.clipboard.getD [] else result.text)

/-- Runs the program. There is no report when the `Invocation` is interactive; then the path of the
file to edit, if one is given, and the settings are what it goes on with. -/
def run (name : String) (args : List String) (settings : Except Settings.LoadError Settings)
    (read : Except FileError (List Char)) : Checked (Report ⊕ (Option String × Settings)) :=
  match CommandLine.parse args, settings with
  | .error e, _ => return .inl (refused name e)
  | .ok _, .error _ => return .inl unloadable
  | .ok .help, .ok _ => return .inl (success (CommandLine.usage name ++ "\n").toList)
  | .ok .listCommands, .ok _ =>
    return .inl (success (Operation.all.flatMap fun op => (op.id ++ "\n").toList))
  | .ok (.batch request), .ok s => return .inl (← runBatch s request read)
  | .ok (.interactive path), .ok s => return .inr (path, s)

end Program

end SexpEdit
