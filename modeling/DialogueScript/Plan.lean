import DialogueScript.Operator
import DialogueScript.Store

/-!
# Evaluation plans

A compiled expression is a list of steps in the order of evaluation, not a tree.
An operand is a value, a variable or the result of an earlier step; the result of
the last step is the value of the expression.
-/

namespace DialogueScript

/-- What a step works on. -/
inductive Operand where
  | literal (v : Value)
  | variable (name : String)
  /-- The result of the step with this index. -/
  | result (step : Nat)
deriving DecidableEq

/-- One operation of a plan. Without an operator it hands on its right
operand. -/
structure Step where
  operator : Option Operator
  left : Option Operand
  right : Option Operand
deriving DecidableEq

structure Plan where
  steps : List Step
deriving DecidableEq, Inhabited

/-- The value of an operand. A slot that is not in use and a result that was never
delivered read as `undefined`. -/
def Operand.read (store : Store) : Option Operand → Value
  | some (.literal v) => v
  | some (.variable name) => store.get name
  | some (.result _) => .undefined
  | none => .undefined

namespace Step

def uses (s : Step) (index : Nat) : Bool :=
  s.left = some (.result index) || s.right = some (.result index)

def value (store : Store) (s : Step) : Value :=
  match s.operator with
  | some o => o.apply (Operand.read store s.left) (Operand.read store s.right)
  | none => Operand.read store s.right

end Step

namespace Plan

def empty : Plan := ⟨[]⟩

def isEmpty (p : Plan) : Bool := p.steps.isEmpty

/-- Puts the result of a step into the first slot that waits for it, the left slot
of a step coming before its right one. -/
def deliver (index : Nat) (result : Value) : List Step → List Step
  | [] => []
  | s :: rest =>
    if s.left = some (.result index) then { s with left := some (.literal result) } :: rest
    else if s.right = some (.result index) then { s with right := some (.literal result) } :: rest
    else s :: deliver index result rest

@[simp]
theorem length_deliver (index : Nat) (result : Value) (steps : List Step) :
    (deliver index result steps).length = steps.length := by
  induction steps with
  | nil => rfl
  | cons s rest ih =>
    rw [deliver]
    split
    · rfl
    split
    · rfl
    · simp [ih]

/-- Runs steps of which the first has an index, each result being delivered to the
steps behind it. -/
def runFrom (store : Store) (index : Nat) (steps : List Step) : Value :=
  match steps with
  | [] => .undefined
  | [last] => last.value store
  | s :: next :: rest =>
    runFrom store (index + 1) (deliver index (s.value store) (next :: rest))
termination_by steps.length
decreasing_by simp

/-- The value of an expression, which is `undefined` for an empty one. -/
def evaluate (p : Plan) (store : Store) : Value := runFrom store 0 p.steps

end Plan

end DialogueScript
