import DialogueScript.Store

/-!
# Host functions

The functions that call statements reach. A function sees the arguments, the store
of the script and one random draw, and it answers with a value or with the message
of a failure; the store it leaves behind stays in either case. The value answered
is of no further use to a call statement.

Two functions come with the language:

* `rand(from, to)` draws a whole number between two bounds, both included. Bounds
  are taken as numbers and never refused, so a missing bound makes the result NaN.
* `restartSpiel()` does nothing. It is there for hosts to replace.
-/

namespace DialogueScript

abbrev Reply := Except String Value

/-- A function that scripts can call. -/
structure HostFunction where
  /-- Whether the function comes with the language. -/
  builtin : Bool
  /-- The answer and the store left behind, for a draw from `[0, 1)`, the arguments
  and the store. -/
  run : Float → List Value → Store → Reply × Store

/-- The host functions that a script is compiled against, by name. -/
abbrev Registry := NameTable HostFunction

namespace HostFunction

/-- A whole number between two bounds, for a draw from `[0, 1)`. -/
def between (draw lower upper : Float) : Float :=
  (draw * (upper - lower + 1)).floor + lower

/-- The number of the argument with an index; NaN if there is none. -/
def bound (arguments : List Value) (index : Nat) : Float :=
  (arguments[index]?.getD .undefined).toNumber

/-- Draws a whole number between its first two arguments. -/
def rand : HostFunction where
  builtin := true
  run draw arguments store :=
    (.ok (.number (between draw (bound arguments 0) (bound arguments 1))), store)

def restartSpiel : HostFunction where
  builtin := true
  run _ _ store := (.ok .undefined, store)

end HostFunction

def Registry.builtin : Registry :=
  NameTable.ofList [("rand", HostFunction.rand), ("restartSpiel", HostFunction.restartSpiel)]

end DialogueScript
