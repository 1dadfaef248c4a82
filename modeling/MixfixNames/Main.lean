/-
# The Program

The command line program around `CommandLine.run`: it reads the arguments and the environment and
writes the outcome.
-/
import MixfixNames.CommandLine.Answer

open MixfixNames

/-- Answers the question on the command line. -/
def main (arguments : List String) : IO UInt32 := do
  let environment ← IO.getEnv "NAMEX_EXT"
  let outcome := CommandLine.run (environment.map String.toList) (arguments.map String.toList)
  match outcome with
  | .answered output => IO.print (String.ofList output)
  | .failed output => IO.eprint (String.ofList output)
  | .misused => IO.eprint (String.ofList CommandLine.usage)
  return UInt32.ofNat outcome.status
