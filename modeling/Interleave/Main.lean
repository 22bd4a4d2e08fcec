/-
# The program

Reads the command line, prints the response and writes the trace file.
-/
import Interleave.CommandLine

open Interleave

/-- Writes the trace; a file that cannot be written is left alone. -/
def writeTrace : Option (String × String) → IO Unit
  | none => pure ()
  | some (path, text) => do
    try IO.FS.writeFile path text catch _ => pure ()

def main (args : List String) : IO UInt32 := do
  match CommandLine.parse? args with
  | none =>
    (← IO.getStderr).putStr "error: arguments not understood\n"
    return 2
  | some command =>
    let response := CommandLine.respond command
    writeTrace response.trace
    (← IO.getStdout).putStr response.stdout
    (← IO.getStderr).putStr response.stderr
    return response.code.toUInt32
