import DialogueScript.Fault
import DialogueScript.Position
import DialogueScript.Text

/-!
# Kinds of statements

The kind of a statement shows in its first characters. Classifying looks only as
far as it has to; the rest of the text is checked when the statement is read.
-/

namespace DialogueScript

inductive StatementKind where
  | assignment
  | call
  | branch
deriving DecidableEq, Repr

namespace StatementKind

open Text

/-- The kind of the statement that a text holds: a branch begins with the keyword
`if`, an assignment with a name and `=`, a call with a name and `(`. -/
def classify (text : List Char) : Except (Located Fault) StatementKind :=
  if beginsWithKeyword ['i', 'f'] text then .ok branch
  else
    match leadingName? text with
    | none => .error (.atChar (.namelessStatement (String.ofList text)) 0)
    | some (_, afterName) =>
      match (trimStart afterName).head? with
      | some '=' => .ok assignment
      | some '(' => .ok call
      | _ => .error (.atChar (.unknownStatement (String.ofList text)) 0)

end StatementKind

namespace Introducer

open Text

/-- Whether a text begins with the words `else if`, blanks between them. -/
def isElseIf (text : List Char) : Bool :=
  ['e', 'l', 's', 'e'].isPrefixOf text &&
    (text.drop 4).head?.any isBlank && beginsWithKeyword ['i', 'f'] (trimStart (text.drop 4))

/-- Whether a text begins with the keyword `else`. What stands behind it is not
looked at. -/
def isElse (text : List Char) : Bool := beginsWithKeyword ['e', 'l', 's', 'e'] text

end Introducer

end DialogueScript
