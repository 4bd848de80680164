import DialogueScript.Number.Shortest
import DialogueScript.Text

/-!
# Values

Scripts declare no types. Literals are booleans, numbers and strings; a variable
that was never set reads as `undefined`; `null` only comes from the host.
-/

namespace DialogueScript

inductive Value where
  | undefined
  | null
  | bool (b : Bool)
  | number (x : Float)
  | str (s : String)
deriving DecidableEq, Inhabited

namespace Value

/-- Whether a value counts as true: all but `undefined`, `null`, `false`, zero of
either sign, NaN and the empty string do. -/
def truthy : Value → Bool
  | undefined => false
  | null => false
  | bool b => b
  | number x => x != 0 && !x.isNaN
  | str s => !s.isEmpty

/-- The number that a string stands for in arithmetic. Blanks around it do not
count, nothing at all is zero, and what is no numeral is NaN. The only words
read are `Infinity`, `+Infinity` and `-Infinity`. -/
def numberOfString (s : String) : Float :=
  let text := Text.trim s.toList
  if text.isEmpty then 0
  else if text = "Infinity".toList || text = "+Infinity".toList then Number.infinity
  else if text = "-Infinity".toList then -Number.infinity
  else Number.ofNumeral text

def toNumber : Value → Float
  | undefined => Number.nan
  | null => 0
  | bool b => if b then 1 else 0
  | number x => x
  | str s => numberOfString s

def display : Value → String
  | undefined => "undefined"
  | null => "null"
  | bool b => if b then "true" else "false"
  | number x => Number.toText x
  | str s => s

def isStr : Value → Bool
  | str _ => true
  | _ => false

/-- Equality of values of one kind. Numbers are compared as numbers: NaN differs
from itself, and the two zeros are equal. -/
def strictEq : Value → Value → Bool
  | undefined, undefined => true
  | null, null => true
  | bool a, bool b => a == b
  | number x, number y => x == y
  | str s, str t => s == t
  | _, _ => false

/-- The order of two numbers, if neither is NaN. -/
def orderOfNumbers? (x y : Float) : Option Ordering :=
  if x < y then some .lt
  else if y < x then some .gt
  else if x == y then some .eq
  else none

/-- The order of two values: strings by code points, anything else as
numbers. -/
def order? : Value → Value → Option Ordering
  | str s, str t => some (compare s t)
  | left, right => orderOfNumbers? left.toNumber right.toNumber

end Value

end DialogueScript
