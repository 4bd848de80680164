/-!
# Positions in a script

A position names a dialogue node, a line and a character of that line, all
counted from zero and each possibly unknown. While a script is read, a position
only holds a flat character offset; once the whole source is at hand, the offset
is resolved to a line and a character.
-/

namespace DialogueScript

/-- Where something stands, as far as that is known. -/
structure Position where
  node : Option Nat := none
  line : Option Nat := none
  char : Option Nat := none
deriving DecidableEq, Repr

namespace Position

def unknown : Position := {}

def isUnknown (p : Position) : Bool := p = unknown

/-- A flat character offset, not yet resolved to a line. -/
def atChar (offset : Nat) : Position := { char := some offset }

/-- The line and character of a flat offset into a source. Lines end at a line
feed, and an offset beyond the end counts as the end. -/
def ofOffset (source : List Char) (offset : Nat) (node : Option Nat) : Position :=
  let passed := source.take offset
  { node
    line := some (passed.count '\n')
    char := some (passed.reverse.takeWhile (· ≠ '\n')).length }

def part (label : String) : Option Nat → String
  | some n => " " ++ label ++ " " ++ Nat.repr n
  | none => ""

/-- A position as the end of a message: ` at node 1 line 2 char 3`, without the
parts that are unknown. -/
def suffix (p : Position) : String :=
  if p.isUnknown then ""
  else " at" ++ part "node" p.node ++ part "line" p.line ++ part "char" p.char

end Position

/-- A cause together with the position it is reported at. -/
structure Located (ε : Type) where
  cause : ε
  position : Position
deriving DecidableEq

namespace Located

variable {ε : Type}

def atChar (cause : ε) (offset : Nat) : Located ε := ⟨cause, .atChar offset⟩

/-- Moves the character offset on. An unknown one becomes the distance
itself. -/
def shift (e : Located ε) (distance : Nat) : Located ε :=
  { e with position := { e.position with char := some (e.position.char.getD 0 + distance) } }

/-- Resolves the flat offset against the whole source and adds the node. Without
an offset only the node becomes known. -/
def resolve (e : Located ε) (source : List Char) (node : Option Nat) : Located ε :=
  match e.position.char with
  | some offset => { e with position := .ofOffset source offset node }
  | none => { e with position := { e.position with node } }

def render (message : ε → String) (e : Located ε) : String :=
  message e.cause ++ e.position.suffix

end Located

end DialogueScript
