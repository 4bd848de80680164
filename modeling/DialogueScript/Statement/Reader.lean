import DialogueScript.Fragment
import DialogueScript.NameTable
import DialogueScript.Plan.Build
import DialogueScript.Statement
import DialogueScript.Statement.Kind

/-!
# Reading statements

Fragments become statements from left to right, and the first fault ends the
reading. A call is bound to the registered function of its name here, so a script
that names an unknown function is never run.

A branch takes the fragments behind its `if` that stand deeper than it as its
block, then every `else if` at its own depth with the block beneath, then an
`else`. Deeper fragments that no branch takes count as statements of the block
they are met in.
-/

namespace DialogueScript

open Text

/-! ## Assignments, calls and conditions -/

namespace Statement

/-- Reads `name = value`. -/
def readAssignment (text : List Char) : Except (Located Fault) (String × Plan) :=
  match leadingName? text with
  | none => .error (.atChar .invalidVariableName 0)
  | some (name, _) =>
    match cutFirst? '=' text with
    | none => .error (.atChar .missingAssignmentSign 0)
    | some (before, value) =>
      (Plan.compile value (before.length + 1)).map fun plan => (String.ofList name, plan)

/-- Compiles the pieces between the commas of a call, the first of which stands at
an offset. Blank pieces are passed over, so `f(1,,2)` has two arguments. -/
def compilePieces (offset : Nat) : List (List Char) → Except (Located Fault) (List Plan)
  | [] => .ok []
  | piece :: rest =>
    if allBlank piece then compilePieces (offset + piece.length + 1) rest
    else do
      let plan ← Plan.compile piece offset
      let plans ← compilePieces (offset + piece.length + 1) rest
      return plan :: plans

/-- Reads the arguments between the first `(` and the last `)` of a call. Every
comma between them separates arguments, also one inside further parentheses. -/
def readArguments (text : List Char) : Except (Located Fault) (List Plan) :=
  match cutFirst? '(' text with
  | none => .error (.atChar .missingCallParentheses 0)
  | some (before, rest) =>
    match cutLast? ')' rest with
    | none => .error (.atChar .missingCallParentheses 0)
    | some (inside, trailing) =>
      let start := before.length + 1
      if allBlank trailing then compilePieces start (inside.splitOn ',')
      else
        .error (.atChar (.textAfterCall (String.ofList (trim trailing)))
          (start + inside.length + 1 + leadingBlanks trailing))

/-- Reads `name(arguments)` and binds the name to what is registered under it. -/
def readCall {φ : Type} (registry : NameTable φ) (text : List Char) :
    Except (Located Fault) (String × φ × List Plan) :=
  match leadingName? text with
  | none => .error (.atChar .invalidFunctionName 0)
  | some (name, _) =>
    match registry.find? (String.ofList name) with
    | none => .error (.atChar (.unknownFunction (String.ofList name)) 0)
    | some function =>
      (readArguments text).map fun arguments => (String.ofList name, function, arguments)

/-- Reads the condition between the first `(` and the last `)` of a clause. -/
def readCondition (introducer : Introducer) (text : List Char) : Except (Located Fault) Plan :=
  match cutFirst? '(' text with
  | none => .error (.atChar .missingConditionStart 0)
  | some (before, rest) =>
    -- A text without any `)` is told apart from one whose last `)` stands before the `(`.
    if ')' ∉ text then .error (.atChar .missingConditionEnd 0)
    else
      match cutLast? ')' rest with
      | none => .error (.atChar .invertedCondition 0)
      | some (inside, trailing) =>
        let start := before.length + 1
        if (words before).map String.ofList ≠ introducer.words then
          .error (.atChar (.textBeforeCondition introducer) 0)
        else if !allBlank trailing then
          .error (.atChar (.textAfterCondition introducer)
            (start + inside.length + 1 + leadingBlanks trailing))
        else if allBlank inside then .error (.atChar .emptyCondition before.length)
        else Plan.compile inside start

end Statement

/-! ## Blocks -/

namespace Fragment

/-- Reads the text of a fragment; a fault is placed within the source. -/
def readWith {α : Type} (f : Fragment) (read : List Char → Except (Located Fault) α) :
    Except (Located Fault) α :=
  (read f.text).mapError fun e => e.shift f.offset

def requireBlock (f : Fragment) (introducer : Introducer) (rest : List Fragment) :
    Except (Located Fault) Unit :=
  if (f.beneath rest).isEmpty then
    .error (.atChar (.missingBlock introducer) (f.offset + f.text.length))
  else .ok ()

end Fragment

variable {φ : Type}

mutual

/-- Reads a run of fragments as one block. -/
def Block.ofFragments (registry : NameTable φ) (fragments : List Fragment) :
    Except (Located Fault) (Block φ) :=
  match fragments with
  | [] => .ok .nil
  | f :: rest => do
    match ← f.readWith StatementKind.classify with
    | .assignment =>
      let (target, value) ← f.readWith Statement.readAssignment
      let tail ← Block.ofFragments registry rest
      return .cons (.assign target value f.offset) tail
    | .call =>
      let (name, function, arguments) ← f.readWith (Statement.readCall registry)
      let tail ← Block.ofFragments registry rest
      return .cons (.call name function arguments f.offset) tail
    | .branch =>
      -- A clause that lacks both its block and its condition is refused for the block.
      f.requireBlock .onIf rest
      let condition ← f.readWith (Statement.readCondition .onIf)
      let body ← Block.ofFragments registry (f.beneath rest)
      let (otherwise, tail) ← Otherwise.ofFragments registry f.depth (f.beyond rest)
      return .cons (.branch condition body otherwise f.offset) tail
termination_by 2 * fragments.length
decreasing_by
  all_goals
    have := f.length_beneath_le rest
    have := f.length_beyond_le rest
    simp <;> omega

/-- Reads the clauses that continue a branch at a depth, and the block that follows
the branch. -/
def Otherwise.ofFragments (registry : NameTable φ) (depth : Nat) (fragments : List Fragment) :
    Except (Located Fault) (Otherwise φ × Block φ) :=
  match fragments with
  | [] => .ok (.nothing, .nil)
  | f :: rest =>
    if f.depth = depth && Introducer.isElseIf f.text then do
      f.requireBlock .onElseIf rest
      let condition ← f.readWith (Statement.readCondition .onElseIf)
      let body ← Block.ofFragments registry (f.beneath rest)
      let (otherwise, tail) ← Otherwise.ofFragments registry depth (f.beyond rest)
      return (.elseIf condition body otherwise, tail)
    else if f.depth = depth && Introducer.isElse f.text then do
      f.requireBlock .onElse rest
      let body ← Block.ofFragments registry (f.beneath rest)
      let tail ← Block.ofFragments registry (f.beyond rest)
      return (.block body, tail)
    else do
      let tail ← Block.ofFragments registry (f :: rest)
      return (.nothing, tail)
termination_by 2 * fragments.length + 1
decreasing_by
  all_goals
    have := f.length_beneath_le rest
    have := f.length_beyond_le rest
    simp <;> omega

end

def Block.parse (registry : NameTable φ) (source : List Char) :
    Except (Located Fault) (Block φ) := do
  let fragments ← Fragment.split source
  Block.ofFragments registry fragments

end DialogueScript
