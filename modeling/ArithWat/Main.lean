import ArithWat.Cli

/-!
# The command

Reads the input that the arguments name, and prints what `Cli.finish` makes of it.
-/

namespace ArithWat.Cli

/-- The contents of a file. -/
def readFile (path : String) : IO (Except ReadFault ByteArray) := do
  try
    return .ok (← IO.FS.readBinFile path)
  catch
    | .noFileOrDirectory .. => return .error .noSuchFile
    | e => return .error (.system (toString e))

/-- The contents of the input that the options name. -/
def fetch (o : Options) : IO (Except ReadFault ByteArray) := do
  match o.input with
  | .sample => return .ok sample.toUTF8
  | .stdin => return .ok (← (← IO.getStdin).readBinToEnd)
  | .file path => readFile path

end ArithWat.Cli

open ArithWat.Cli in
/-- Compiles a script and prints the result. -/
def main (args : List String) : IO UInt32 := do
  let outcome ←
    match Options.read args with
    | .error r => pure (Outcome.refusal r)
    | .ok o => pure (finish o (← fetch o))
  IO.print outcome.stdout
  IO.eprint outcome.stderr
  return outcome.status.toUInt32
