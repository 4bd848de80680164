import DialogueScript.Plan
import DialogueScript.Plan.Schedule
import DialogueScript.Token.Lexer

/-!
# Compiling an expression

A plan is drafted by placing the operators one after another in the order of the
schedule. Placing an operator claims its own token and the tokens next to it. A
neighbour that an earlier step has claimed stands for a value already computed:
the operand is then the result of the last step of the chain that the claiming
step begins.

An expression is refused if an operator lacks a neighbour, if the neighbour is an
operator that nothing has placed yet, or if a token is left that no step claims.
-/

namespace DialogueScript

/-- A token and the step that claimed it. -/
structure Cell where
  token : Token
  owner : Option Nat
deriving DecidableEq

/-- A plan in the making. -/
structure Draft where
  cells : List Cell
  steps : List Step
deriving DecidableEq

namespace Draft

def ofTokens (tokens : List Token) : Draft := ⟨tokens.map fun t => ⟨t, none⟩, []⟩

/-- Claims a token for the step that is placed next. -/
def claim (d : Draft) (index : Nat) : Draft :=
  { d with cells := d.cells.modify index fun cell => { cell with owner := some d.steps.length } }

/-- Follows the chain of steps of which each works on the result of the one
before, to its last step. Steps work on results of earlier steps only, so one pass
over the steps finds it: in `5+6*6*7` the second product works on the first, and
the sum has to take the second. -/
def chainEnd (steps : List Step) (start : Nat) : Nat :=
  steps.zipIdx.foldl (fun current (s, index) => if s.uses current then index else current) start

def missingOperand (o : Operator) (offset : Nat) : Located Fault :=
  .atChar (.missingOperand o) offset

/-- Takes the token with an index as an operand of the operator at a site. -/
def bind (d : Draft) (site : Site) (index : Nat) : Except (Located Fault) (Operand × Draft) :=
  match d.cells[index]? with
  | none => .error (missingOperand site.operator site.offset)
  | some cell =>
    match cell.owner, cell.token.lexeme with
    | some owner, _ => .ok (.result (chainEnd d.steps owner), d)
    | none, .operator o => .error (missingOperand o cell.token.offset)
    | none, .literal v => .ok (.literal v, d.claim index)
    | none, .variable name => .ok (.variable name, d.claim index)

def bindLeft (d : Draft) (site : Site) : Except (Located Fault) (Option Operand × Draft) :=
  if site.operator.isUnary then .ok (none, d)
  else
    match site.index with
    | 0 => .error (missingOperand site.operator site.offset)
    | index + 1 => (d.bind site index).map fun (operand, d) => (some operand, d)

/-- Places the operator of a site: its left operand first, then its right one. -/
def place (d : Draft) (site : Site) : Except (Located Fault) Draft := do
  let (left, d) ← (d.claim site.index).bindLeft site
  let (right, d) ← d.bind site (site.index + 1)
  return { d with steps := d.steps ++ [⟨some site.operator, left, some right⟩] }

/-- The finished plan, if every token is claimed. -/
def finish (d : Draft) : Except (Located Fault) Plan :=
  match d.cells.find? fun cell => cell.owner.isNone with
  | some cell => .error (.atChar .missingOperator cell.token.offset)
  | none => .ok ⟨d.steps⟩

end Draft

namespace Plan

/-- The plan of an expression of one token, which hands on its value. -/
def ofToken (t : Token) : Except (Located Fault) Plan :=
  match t.lexeme with
  | .operator o => .error (Draft.missingOperand o t.offset)
  | .literal v => .ok ⟨[⟨none, none, some (.literal v)⟩]⟩
  | .variable name => .ok ⟨[⟨none, none, some (.variable name)⟩]⟩

def ofDraft (tokens : List Token) : Except (Located Fault) Plan := do
  let raised := Token.raiseRuns tokens
  let draft ← (Site.schedule raised).foldlM Draft.place (Draft.ofTokens raised)
  draft.finish

def ofTokens : List Token → Except (Located Fault) Plan
  | [] => .ok empty
  | [t] => ofToken t
  | t :: u :: rest => ofDraft (t :: u :: rest)

/-- The plan of an expression; faults are placed within its text. -/
def ofText (text : List Char) : Except (Located Fault) Plan := do
  let tokens ← Token.scan text
  ofTokens (Token.settleSigns false tokens)

/-- Compiles an expression that stands at an offset of a larger text. -/
def compile (text : List Char) (offset : Nat) : Except (Located Fault) Plan :=
  (ofText text).mapError fun e => e.shift offset

/-- In `!-x` the negation comes first, and the `!` takes its result. -/
example :
    (ofText ['!', '-', 'x']).toOption =
      some ⟨[⟨some .negate, none, some (.variable "x")⟩,
        ⟨some .logicalNot, none, some (.result 0)⟩]⟩ := by
  decide +kernel

end Plan

end DialogueScript
