import LoopSched.Cli

/-!
# The program

Reads the pipeline file, runs it and writes the result.  There is no polyhedral engine to ask, so
code is generated only for a chain without nests.
-/

namespace LoopSched.Cli

/-- The contents of a file, if it can be read. -/
def readText (path : String) : IO (Option String) := do
  try return some (← IO.FS.readFile path)
  catch _ => return none

/-- Write to a file; tells whether it worked. -/
def writeText (path text : String) : IO Bool := do
  try
    IO.FS.writeFile path text
    return true
  catch _ => return false

def report (t : Trouble) : IO UInt32 := do
  IO.eprintln t.message
  IO.eprintln ""
  IO.eprintln t.details
  return t.exitCode.toUInt32

/-- Run and put the result where it is wanted. -/
def perform (o : Options) : IO UInt32 := do
  match o.run (← readText o.input) Engine.absent with
  | .error t => report t
  | .ok text =>
    match o.output with
    | none =>
      IO.println text
      return 0
    | some path =>
      if ← writeText path text then return 0 else report ⟨.write path, .missingPath⟩

end LoopSched.Cli

open LoopSched

def main (args : List String) : IO UInt32 := do
  match Cli.request args with
  | .misuse =>
    IO.eprintln Cli.usage
    return 2
  | .version =>
    IO.println Cli.versionLine
    return 0
  | .help =>
    IO.println Cli.usage
    return 0
  | .run options => Cli.perform options
