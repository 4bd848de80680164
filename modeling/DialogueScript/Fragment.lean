import DialogueScript.Fault
import DialogueScript.Position
import DialogueScript.Text

/-!
# Fragments

A source falls into fragments at every `;`, `{` and `}`, wherever these stand. A
fragment keeps the number of braces around it and its place in the source; blanks
around it are dropped, and a fragment of nothing but blanks is dropped whole.
-/

namespace DialogueScript

/-- A piece of source between delimiters, without the blanks around it. The depth
counts the braces that enclose it, and the offset is that of its first
character. -/
structure Fragment where
  text : List Char
  depth : Nat
  offset : Nat
deriving DecidableEq

namespace Fragment

/-- The fragment of a piece of source, unless the piece is blank. -/
def ofPiece (piece : List Char) (depth offset : Nat) : List Fragment :=
  if Text.allBlank piece then []
  else [⟨Text.trim piece, depth, offset + Text.leadingBlanks piece⟩]

/-- Cuts up a source whose current piece began at `start`. Of this piece the
characters read so far are `read`, the last one first. -/
def splitFrom (start depth : Nat) (read : List Char) :
    List Char → Except (Located Fault) (List Fragment)
  | [] =>
    if depth = 0 then .ok (ofPiece read.reverse depth start)
    else .error (.atChar .unclosedBrace (start + read.length))
  | c :: rest =>
    let next := start + read.length + 1
    if c = ';' then
      (splitFrom next depth [] rest).map (ofPiece read.reverse depth start ++ ·)
    else if c = '{' then
      (splitFrom next (depth + 1) [] rest).map (ofPiece read.reverse depth start ++ ·)
    else if c = '}' then
      if depth = 0 then .error (.atChar .unopenedBrace (start + read.length))
      else (splitFrom next (depth - 1) [] rest).map (ofPiece read.reverse depth start ++ ·)
    else splitFrom start depth (c :: read) rest

def split (source : List Char) : Except (Located Fault) (List Fragment) :=
  splitFrom 0 0 [] source

/-! ## Blocks by depth -/

/-- The fragments right behind a fragment that stand deeper than it. -/
def beneath (f : Fragment) (rest : List Fragment) : List Fragment :=
  rest.takeWhile fun g => f.depth < g.depth

/-- The fragments from the first on that stands no deeper than a fragment. -/
def beyond (f : Fragment) (rest : List Fragment) : List Fragment :=
  rest.dropWhile fun g => f.depth < g.depth

/-- Behind a fragment, the fragments beneath it and those beyond are all there
is. -/
theorem beneath_append_beyond (f : Fragment) (rest : List Fragment) :
    f.beneath rest ++ f.beyond rest = rest :=
  List.takeWhile_append_dropWhile

theorem length_beneath_le (f : Fragment) (rest : List Fragment) :
    (f.beneath rest).length ≤ rest.length := by
  have := congrArg List.length (beneath_append_beyond f rest)
  simp at this; omega

theorem length_beyond_le (f : Fragment) (rest : List Fragment) :
    (f.beyond rest).length ≤ rest.length := by
  have := congrArg List.length (beneath_append_beyond f rest)
  simp at this; omega

end Fragment

end DialogueScript
