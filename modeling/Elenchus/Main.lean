import Elenchus.Command.Line

/-!
# The program

Reads the files that the command needs, carries the command out, and prints its result to standard
output or its error to standard error.
-/

namespace Elenchus.Program

/-- Reads a file, or says why it cannot be read. -/
def readFile (name : String) : IO (String × Except String String) := do
  try
    return (name, .ok (← IO.FS.readFile name))
  catch e =>
    return (name, .error (toString e))

/-- Prints lines to standard error and fails with a code. -/
def fail (code : UInt32) (lines : List String) : IO UInt32 := do
  for line in lines do
    IO.eprintln line
  return code

/-- Carries out the command of a command line. -/
def run (line : CommandLine) (command : Command) : IO UInt32 := do
  let files ← command.files.mapM readFile
  let contents : FileContents := fun name => (files.lookup name).getD (.error "not read")
  match command.run contents with
  | .error e => fail 1 (line.errorLines e)
  | .ok result =>
    IO.println (result.toJson line.layout)
    return 0

end Elenchus.Program

open Elenchus in
def main (words : List String) : IO UInt32 := do
  let called : Except Usage (CommandLine × Command) := do
    let line ← CommandLine.ofWords words
    return (line, ← line.command)
  match called with
  | .error usage => Program.fail 2 ["error: " ++ usage.message]
  | .ok (line, command) => Program.run line command
