import DialogueScript.Execution
import DialogueScript.Statement.Reader

/-!
# Scripts

Compiling and executing a script. The source is kept with the compiled statements,
so that a failure of the execution can be placed on its line. The node is the
number of the dialogue node that the script belongs to; it only shows in
positions.
-/

namespace DialogueScript

/-- A compiled script and its source. -/
structure Script where
  source : String
  root : Block HostFunction

namespace Script

/-- Compiles a source against the functions of a registry. -/
def compile (registry : Registry) (source : String) (node : Option Nat) :
    Except (Located Fault) Script :=
  match Block.parse registry source.toList with
  | .ok root => .ok { source, root }
  | .error e => .error (e.resolve source.toList node)

def execute (s : Script) (node : Option Nat) (m : Machine) : Outcome :=
  let outcome := s.root.execute m
  { outcome with failure := outcome.failure.map fun e => e.resolve s.source.toList node }

end Script

end DialogueScript
