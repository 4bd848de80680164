/-!
# Introducers

The words that open a statement block: `if`, `else if` and `else`.
-/

namespace DialogueScript

/-- The kind of a clause that opens a block. -/
inductive Introducer where
  | onIf
  | onElseIf
  | onElse
deriving DecidableEq, Repr

namespace Introducer

def words : Introducer → List String
  | onIf => ["if"]
  | onElseIf => ["else", "if"]
  | onElse => ["else"]

/-- The words of an introducer, one blank between them. -/
def text (i : Introducer) : String := " ".intercalate i.words

end Introducer

end DialogueScript
