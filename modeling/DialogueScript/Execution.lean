import DialogueScript.HostFunction
import DialogueScript.Position
import DialogueScript.Statement

/-!
# Execution

Statements run from top to bottom on a machine: the store, the random draws still
to come, and the events so far. Assignments and conditions cannot fail. A call
fails if its host function does; execution then stops, and the machine stays as
the function left it.

The first branch of a chain whose condition holds is taken, and the conditions
behind it are not looked at.
-/

namespace DialogueScript

inductive Event where
  | assigned (name : String) (value : Value)
  | called (name : String) (builtin : Bool) (arguments : List Value) (reply : Reply)

/-- The state of an execution. The draw for the next call is `draws calls`. -/
structure Machine where
  store : Store
  draws : Nat → Float
  calls : Nat := 0
  events : List Event := []

namespace Machine

def assign (m : Machine) (name : String) (value : Value) : Machine :=
  { m with
    store := m.store.insert name value
    events := m.events ++ [.assigned name value] }

def call (m : Machine) (name : String) (function : HostFunction) (arguments : List Value) :
    Reply × Machine :=
  let (reply, store) := function.run (m.draws m.calls) arguments m.store
  (reply, { m with
    store
    calls := m.calls + 1
    events := m.events ++ [.called name function.builtin arguments reply] })

end Machine

/-- A call whose host function failed with a message. -/
structure CallFailure where
  function : String
  message : String
deriving DecidableEq

def CallFailure.text (f : CallFailure) : String :=
  "Execution of " ++ f.function ++ "() failed with " ++ f.message

structure Outcome where
  failure : Option (Located CallFailure)
  machine : Machine

mutual

def Statement.execute (m : Machine) : Statement HostFunction → Outcome
  | .assign target value _ => ⟨none, m.assign target (value.evaluate m.store)⟩
  | .call name function arguments offset =>
    match m.call name function (arguments.map fun a => a.evaluate m.store) with
    | (.ok _, m) => ⟨none, m⟩
    | (.error message, m) => ⟨some (.atChar ⟨name, message⟩ offset), m⟩
  | .branch condition body otherwise _ =>
    if (condition.evaluate m.store).truthy then body.execute m else otherwise.execute m

/-- Executes the statements of a block up to the first that fails. -/
def Block.execute (m : Machine) : Block HostFunction → Outcome
  | .nil => ⟨none, m⟩
  | .cons head tail =>
    match head.execute m with
    | ⟨none, m⟩ => tail.execute m
    | failed => failed

/-- Executes what a branch does if its condition fails. -/
def Otherwise.execute (m : Machine) : Otherwise HostFunction → Outcome
  | .nothing => ⟨none, m⟩
  | .block body => body.execute m
  | .elseIf condition body otherwise =>
    if (condition.evaluate m.store).truthy then body.execute m else otherwise.execute m

end

end DialogueScript
