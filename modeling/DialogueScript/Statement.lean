import DialogueScript.Plan

/-!
# Statements

A compiled script is a block of statements. A statement assigns a variable, calls
a host function or chooses between blocks. Each keeps the offset at which it
stands in the source.

The types have a parameter `φ` for what a call is bound to. Reading a script needs
nothing of a function but its name, so the reader works for every `φ`.
-/

namespace DialogueScript

mutual

/-- A statement with calls bound to `φ`. -/
inductive Statement (φ : Type) where
  /-- `target = value` -/
  | assign (target : String) (value : Plan) (offset : Nat)
  /-- `name(arguments)` -/
  | call (name : String) (function : φ) (arguments : List Plan) (offset : Nat)
  /-- `if (condition)` with its block and what follows if the condition fails. -/
  | branch (condition : Plan) (body : Block φ) (otherwise : Otherwise φ) (offset : Nat)

/-- Statements that are executed from top to bottom. -/
inductive Block (φ : Type) where
  | nil
  | cons (head : Statement φ) (tail : Block φ)

/-- What a branch does if its condition fails. -/
inductive Otherwise (φ : Type) where
  /-- Nothing. -/
  | nothing
  /-- `else` with its block. -/
  | block (body : Block φ)
  /-- `else if (condition)` with its block and what follows if that fails too. -/
  | elseIf (condition : Plan) (body : Block φ) (otherwise : Otherwise φ)

end

namespace Block

variable {φ : Type}

instance : Inhabited (Block φ) := ⟨nil⟩

def toList : Block φ → List (Statement φ)
  | nil => []
  | cons head tail => head :: tail.toList

/-- How many statements a block has, those inside its branches not counted. -/
def length : Block φ → Nat
  | nil => 0
  | cons _ tail => tail.length + 1

def isEmpty : Block φ → Bool
  | nil => true
  | cons _ _ => false

end Block

end DialogueScript
