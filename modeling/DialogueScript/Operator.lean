import DialogueScript.Value

/-!
# Operators

The operators of expressions: their symbols, how many operands they take, the
order in which they bind, and what they compute. Operators have no effects, so
both operands of `&&` and `||` are evaluated and one of them is the result.
-/

namespace DialogueScript

inductive Operator where
  | logicalNot
  | negate
  | multiply
  | divide
  | subtract
  | add
  | greater
  | greaterOrEqual
  | less
  | lessOrEqual
  | strictEqual
  | strictNotEqual
  | logicalAnd
  | logicalOr
deriving DecidableEq, Repr

namespace Operator

def all : List Operator :=
  [logicalNot, negate, multiply, divide, subtract, add, greater, greaterOrEqual, less,
   lessOrEqual, strictEqual, strictNotEqual, logicalAnd, logicalOr]

def symbol : Operator → String
  | logicalNot => "!"
  | negate => "-"
  | multiply => "*"
  | divide => "/"
  | subtract => "-"
  | add => "+"
  | greater => ">"
  | greaterOrEqual => ">="
  | less => "<"
  | lessOrEqual => "<="
  | strictEqual => "==="
  | strictNotEqual => "!=="
  | logicalAnd => "&&"
  | logicalOr => "||"

/-- Whether an operator takes only the operand to its right. -/
def isUnary : Operator → Bool
  | logicalNot | negate => true
  | _ => false

/-- How tightly an operator binds: lower orders bind first, and equal ones from
left to right. -/
def order : Operator → Nat
  | logicalNot | negate => 10
  | multiply | divide => 20
  | subtract | add => 25
  | greater | greaterOrEqual | less | lessOrEqual => 30
  | strictEqual | strictNotEqual => 35
  | logicalAnd => 40
  | logicalOr => 45

/-! ## Symbols -/

def isSymbolChar (c : Char) : Bool :=
  all.any fun o => o.symbol.toList.contains c

def longestSymbol : Nat := 3

/-- The operator that a symbol is first read as. A `-` is read as a subtraction;
whether it is a negation is only known from what stands before it. -/
def ofSymbol? (symbol : List Char) : Option Operator :=
  (all.filter (· ≠ negate)).find? fun o => o.symbol.toList = symbol

/-- Whether the operator first read can turn out to be another one. -/
def isProvisional (o : Operator) : Bool := o = subtract

/-- The longest symbol among the first `n` characters of a text that is a
beginning of it, with its length. -/
def longestMatch? (text : List Char) : Nat → Option (Operator × Nat)
  | 0 => none
  | n + 1 =>
    match ofSymbol? (text.take (n + 1)) with
    | some o => some (o, n + 1)
    | none => longestMatch? text n

/-! ## Meaning -/

/-- What an operator computes from its operands. A unary operator does not look
at the left one. `+` joins texts as soon as one side is a string; a comparison
with NaN is false. -/
def apply : Operator → Value → Value → Value
  | logicalNot, _, right => .bool (!right.truthy)
  | negate, _, right => .number (-right.toNumber)
  | multiply, left, right => .number (left.toNumber * right.toNumber)
  | divide, left, right => .number (left.toNumber / right.toNumber)
  | subtract, left, right => .number (left.toNumber - right.toNumber)
  | add, left, right =>
    if left.isStr || right.isStr then .str (left.display ++ right.display)
    else .number (left.toNumber + right.toNumber)
  | greater, left, right => .bool (left.order? right = some .gt)
  | greaterOrEqual, left, right =>
    .bool (left.order? right = some .gt || left.order? right = some .eq)
  | less, left, right => .bool (left.order? right = some .lt)
  | lessOrEqual, left, right =>
    .bool (left.order? right = some .lt || left.order? right = some .eq)
  | strictEqual, left, right => .bool (left.strictEq right)
  | strictNotEqual, left, right => .bool (!left.strictEq right)
  | logicalAnd, left, right => if left.truthy then right else left
  | logicalOr, left, right => if left.truthy then left else right

end Operator

end DialogueScript
