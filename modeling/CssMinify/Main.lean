import CssMinify.CommandLine

/-!
The program. Arguments are read before the input is.
-/

namespace CssMinify.CommandLine

/-- Writes what a run leaves behind and gives its exit code. -/
def report (outcome : Outcome) : IO UInt32 := do
  (← IO.getStderr).putStr outcome.errors
  let stdout ← IO.getStdout
  stdout.putStr outcome.output
  stdout.flush
  return UInt32.ofNat outcome.code

end CssMinify.CommandLine

open CssMinify in
def main (arguments : List String) : IO UInt32 := do
  match CommandLine.configFrom {} arguments with
  | .ok config => CommandLine.report (.ofSheet config (← (← IO.getStdin).readToEnd))
  | .error e => CommandLine.report (.ofProfileError e)
