import TwinForest.Cli.Run

/-!
# The program

Reads the files that the command line names, runs the command and prints its outcome.
-/

namespace TwinForest.Cli

/-- The text of the file at a path, if there is one and it is text. -/
def readFile (path : String) : IO (Option String) := do
  try
    return String.fromUTF8? (← IO.FS.readBinFile path)
  catch _ =>
    return none

def pathsOf (args : List String) : List String :=
  match Invocation.ofArgs args with
  | .run options => options.command.paths
  | _ => []

end TwinForest.Cli

open TwinForest.Cli in
def main (args : List String) : IO UInt32 := do
  let files ← (pathsOf args).mapM fun path => do return (path, ← readFile path)
  let outcome := run (fun path => (files.lookup path).join) args
  IO.print outcome.stdout
  for line in outcome.log ++ outcome.error.toList do
    IO.eprintln line
  return outcome.code.toUInt32
