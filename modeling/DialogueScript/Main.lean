import DialogueScript.CommandLine
import DialogueScript.Draws

/-!
# The program

Reads the arguments and the script, runs the invocation, and prints its result.
-/

namespace DialogueScript

def usage : String :=
  "Usage: dialoguescript [--file] [--node N] [--set NAME=VALUE]... [CONTENTS]"

def readScript (origin : Invocation.Origin) : IO (Except Invocation.ReadFailure String) := do
  match origin with
  | .argument text => return .ok text
  | .standardInput => return Invocation.textOfBytes (← (← IO.getStdin).readBinToEnd)
  | .file path =>
    try return Invocation.textOfBytes (← IO.FS.readBinFile path)
    catch
      | .noFileOrDirectory .. => return .error .notFound
      | e => return .error (.other (toString e))

end DialogueScript

open DialogueScript in
def main (arguments : List String) : IO UInt32 := do
  match Invocation.ofArguments? arguments with
  | none =>
    IO.eprintln usage
    return 2
  | some invocation =>
    let script ← readScript invocation.origin
    let seed ← IO.rand 0 18446744073709551615
    let result := invocation.run (Draws.ofSeed (UInt64.ofNat seed)) script
    IO.print result.output
    IO.eprint result.errors
    return result.status
