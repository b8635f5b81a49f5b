import Injector.CommandLine.Run
import Injector.CommandLine.Words

/-!
# The command line

Files are read and results are printed here; everything else is decided elsewhere.
-/

namespace Injector.CommandLine

/-- The text of a file, if it can be read. -/
def readFile? (path : String) : IO (Option String) := do
  try
    return some (← IO.FS.readFile path)
  catch _ =>
    return none

/-- Reads the files that a command names. -/
def Invocation.readFiles (i : Invocation) : IO Files := do
  let paths := i.file :: i.configuration.toList
  let texts ← paths.mapM fun path => return (path, ← readFile? path)
  return fun path => (texts.lookup path).join

end Injector.CommandLine

open Injector.CommandLine

/-- Reads the command line, carries it out and prints the outcome. -/
def main (words : List String) : IO UInt32 := do
  match parse (← IO.getEnv "PUREWIRE_CONFIG") words with
  | .error e =>
      IO.eprintln ("error: " ++ e.message)
      return 2
  | .ok invocation =>
      match invocation.run (← invocation.readFiles) with
      | .error e =>
          IO.eprintln ("Error: " ++ e.message)
          return 1
      | .ok outcome =>
          IO.print outcome.output
          return if outcome.hasErrors then 1 else 0
