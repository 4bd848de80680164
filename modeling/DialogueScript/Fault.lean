import DialogueScript.Introducer
import DialogueScript.Operator

/-!
# Faults

What can be wrong with the text of a script, and the wording of each.
-/

namespace DialogueScript

/-- A reason to refuse a script. -/
inductive Fault where
  /-- A character or run of operator characters that begins no operator. -/
  | invalidOperator (shown : String)
  /-- An operator with nothing to work on. -/
  | missingOperand (operator : Operator)
  /-- An operand that no operator takes. -/
  | missingOperator
  /-- A right parenthesis that closes nothing. -/
  | unopenedParenthesis
  /-- A left parenthesis that nothing closes. -/
  | unclosedParenthesis
  /-- A string literal without its closing quote. -/
  | unclosedString
  /-- A variable right after a variable. -/
  | adjacentVariables
  /-- A literal right after a literal. -/
  | adjacentLiterals
  /-- A right brace that closes nothing. -/
  | unopenedBrace
  /-- A left brace that nothing closes. -/
  | unclosedBrace
  /-- A statement that begins with no name. -/
  | namelessStatement (text : String)
  /-- A statement that is neither an assignment nor a call nor a branch. -/
  | unknownStatement (text : String)
  /-- An assignment that begins with no name. -/
  | invalidVariableName
  /-- An assignment without its sign. -/
  | missingAssignmentSign
  /-- A call that begins with no name. -/
  | invalidFunctionName
  /-- A call of a function that is not registered. -/
  | unknownFunction (name : String)
  /-- A call without a pair of parentheses. -/
  | missingCallParentheses
  /-- Text behind the right parenthesis of a call. -/
  | textAfterCall (text : String)
  /-- A condition without its left parenthesis. -/
  | missingConditionStart
  /-- A condition without its right parenthesis. -/
  | missingConditionEnd
  /-- A condition whose parentheses are the wrong way round. -/
  | invertedCondition
  /-- Text between the introducer and its condition. -/
  | textBeforeCondition (introducer : Introducer)
  /-- Text behind the right parenthesis of a condition. -/
  | textAfterCondition (introducer : Introducer)
  /-- A pair of parentheses with no condition in it. -/
  | emptyCondition
  /-- An introducer that no block follows. -/
  | missingBlock (introducer : Introducer)
deriving DecidableEq, Repr

namespace Fault

def quoted (text : String) : String := "\"" ++ text ++ "\""

def message : Fault → String
  | invalidOperator shown => "Invalid operator: " ++ quoted shown
  | missingOperand operator => "Missing operand for " ++ quoted operator.symbol
  | missingOperator => "Missing operator"
  | unopenedParenthesis => "Right parenthesis without left parenthesis"
  | unclosedParenthesis => "Expression is missing a closing parenthesis"
  | unclosedString => "Missing closing ' for string literal"
  | adjacentVariables => "Two variables cannot be next to each other"
  | adjacentLiterals => "Two literals cannot be next to each other"
  | unopenedBrace => "Unexpected " ++ quoted "\x7d"
  | unclosedBrace => "Missing " ++ quoted "\x7d"
  | namelessStatement text => "Invalid symbol name in statement: " ++ quoted text
  | unknownStatement text => "Could not parse statement: " ++ quoted text
  | invalidVariableName => "Invalid variable name"
  | missingAssignmentSign => "Missing " ++ quoted "=" ++ " in assignment statement"
  | invalidFunctionName => "Invalid function name"
  | unknownFunction name => "Unknown function: " ++ quoted name
  | missingCallParentheses => "Missing parentheses in function call"
  | textAfterCall text => "Unexpected text after function call: " ++ quoted text
  | missingConditionStart => "Missing " ++ quoted "(" ++ " for if expression"
  | missingConditionEnd => "Missing " ++ quoted ")" ++ " for if expression"
  | invertedCondition => "If expression is invalid"
  | textBeforeCondition introducer => "Unexpected text before " ++ introducer.text ++ " expression"
  | textAfterCondition introducer => "Unexpected text after " ++ introducer.text ++ " expression"
  | emptyCondition => "Empty if expression"
  | missingBlock introducer => "Missing statement block for " ++ introducer.text ++ " statement"

end Fault

end DialogueScript
