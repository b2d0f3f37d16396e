import ExactFormula.CommandLine.Run

/-!
The program: reads the files and the input that its command needs, runs it and prints.
-/

open ExactFormula.CommandLine

def readFile? (path : String) : IO (Option String) := do
  try
    return some (← IO.FS.readFile path)
  catch _ => return none

def main (args : List String) : IO UInt32 := do
  let command := Command.ofArgs? args
  let files ← (command.elim [] Command.files).mapM fun path => return (path, ← readFile? path)
  let input ← if command.any Command.readsInput then (← IO.getStdin).readToEnd else pure ""
  let exit := exitOf ⟨fun path => (files.lookup path).join, input⟩ command
  IO.print exit.printed.output
  IO.eprint exit.printed.errors
  return exit.status.toUInt32
