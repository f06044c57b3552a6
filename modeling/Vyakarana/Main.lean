import Vyakarana.CommandLine

/-!
The program: reads its settings, its arguments and the table that they name, and prints what
the command leaves behind.
-/

namespace Vyakarana

-- The settings of the environment and of a file of variables in the working directory.
def environmentSettings : IO (Except (List FieldError) Settings) := do
  let mut bindings : List Binding := []
  for name in ["LOG_LEVEL", "LOG_FORMAT", "LOG_STEPS", "DHATUPATHA_PATH"] do
    let fullName := "PRAKRIYA_" ++ name
    if let some value ← IO.getEnv fullName then
      bindings := bindings ++ [(fullName.toList, some value.toList)]
  let file ← (try IO.FS.readFile ".env" catch _ => pure "")
  return Settings.ofVariables bindings file.toList

-- The one file that a command reads.
def readFiles (path : Option Text) : IO Files := do
  match path with
  | none => return []
  | some path =>
    try
      let text ← IO.FS.readFile (String.ofList path)
      return [(path, text.toList)]
    catch _ => return []

end Vyakarana

open Vyakarana in
def main (args : List String) : IO UInt32 := do
  let words := args.map String.toList
  let settings ← environmentSettings
  match settings with
  | .error errors =>
    for e in errors do
      IO.eprintln (e.field ++ ": " ++ e.problem.name)
    return 1
  | .ok settings =>
    let path :=
      match Command.read words with
      | .ok command => command.tablePath? settings
      | .error _ => none
    let files ← readFiles path
    match Command.run settings files words with
    | .error fault =>
      IO.eprintln (String.ofList fault.message)
      return 1
    | .ok result =>
      IO.print (String.ofList result.output)
      for problem in result.problems do
        IO.eprintln (String.ofList problem)
      return result.exit.toUInt32
