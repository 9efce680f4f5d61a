import Minterm.CommandLine

/-! The program: prints what the command line asks for, and complaints on the error stream. -/

def main (arguments : List String) : IO UInt32 := do
  let outcome := Minterm.CommandLine.run arguments
  IO.print outcome.stdout
  if let some complaint := outcome.complaint then
    IO.eprintln complaint
  return outcome.status.toUInt32
