import DialogueScript.Operator

/-!
# Tokens

The lexical units of an expression. Parentheses are no tokens: they only raise
the depth of the tokens between them.
-/

namespace DialogueScript

inductive Lexeme where
  | operator (o : Operator)
  | literal (v : Value)
  | variable (name : String)
deriving DecidableEq

/-- A lexical unit of an expression: how deep in parentheses it stands, and the
offset of its first character. -/
structure Token where
  lexeme : Lexeme
  depth : Nat
  offset : Nat
deriving DecidableEq

namespace Token

def operator? (t : Token) : Option Operator :=
  match t.lexeme with
  | .operator o => some o
  | _ => none

def isUnary (t : Token) : Bool := t.operator?.any Operator.isUnary

def raise (levels : Nat) (t : Token) : Token := { t with depth := t.depth + levels }

/-- Decides for each `-` what it is: a negation at the start of the expression
and after an operator, and a subtraction after an operand. The flag tells whether
an operand stands just before. -/
def settleSigns (afterOperand : Bool) : List Token → List Token
  | [] => []
  | t :: rest =>
    match t.lexeme with
    | .operator .subtract =>
      { t with lexeme := .operator (if afterOperand then .subtract else .negate) } ::
        settleSigns false rest
    | .operator _ => t :: settleSigns false rest
    | _ => t :: settleSigns true rest

end Token

end DialogueScript
