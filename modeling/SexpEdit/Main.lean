/-
The command line program.

It reads the settings and the input, has `Program.run` decide what to print, and prints it.
-/
import SexpEdit.Program

namespace SexpEdit

/-- Reads a file; what goes wrong becomes a `FileError`. -/
def readText (path : String) : IO (Except FileError (List Char)) := do
  try
    return .ok (← IO.FS.readFile path).toList
  catch e =>
    match e with
    | .noFileOrDirectory .. => return .error .notFound
    | .inappropriateType .. => return .error .isDirectory
    | e => return .error (.other (toString e))

/-- Reads what is there until the end of the input. -/
partial def readAll (input : IO.FS.Stream) (acc : String) : IO String := do
  let line ← input.getLine
  if line.isEmpty then return acc else readAll input (acc ++ line)

/-- Loads the settings from their place below the home directory. -/
def readSettings : IO (Except Settings.LoadError Settings) := do
  let home := (← IO.getEnv "HOME").getD ""
  let source ← match ← readText (home ++ "/.config/paredit/config.toml") with
    | .ok text => pure (Settings.Source.text text)
    | .error .notFound => pure .missing
    | .error _ => pure .unreadable
  let names := match source with
    | .text cs => ((Settings.parse? cs).bind Settings.logFile).elim [] Settings.variableNames
    | _ => []
  let values ← names.mapM fun name => do
    return (name, (← IO.getEnv (String.ofList name)).map String.toList)
  return Settings.loadOrDefault home.toList (fun name => (values.lookup name).join) source

end SexpEdit

open SexpEdit

/-- Reads the arguments, the settings and the input, runs `Program.run`, and prints its `Report`. -/
def main (args : List String) : IO UInt32 := do
  let read ← match Program.input? args with
    | some (.file path) => readText path
    | some .stdin => .ok <$> String.toList <$> readAll (← IO.getStdin) ""
    | none => pure (.ok [])
  match Program.run "paredit" args (← readSettings) read with
  | .error _ =>
    (← IO.getStderr).putStrLn "Error: a number or a text is too large"
    return 101
  | .ok (.inl report) =>
    (← IO.getStdout).putStr (String.ofList report.out)
    (← IO.getStderr).putStr (String.ofList report.err)
    return report.code.toUInt32
  | .ok (.inr _) =>
    (← IO.getStderr).putStrLn "Error: editing needs a terminal"
    return 1
