/-!
# Random draws

A stream of numbers from `[0, 1)` for a seed. The draw with index `n` is computed
from `n` alone: the seed plus a multiple of an odd constant is mixed by shifts and
products, and the upper 53 bits are taken as a binary fraction.
-/

namespace DialogueScript.Draws

/-- Spreads the bits of a word over the whole word. -/
def mix (z : UInt64) : UInt64 :=
  let z := (z ^^^ (z >>> 30)) * 0xBF58476D1CE4E5B9
  let z := (z ^^^ (z >>> 27)) * 0x94D049BB133111EB
  z ^^^ (z >>> 31)

/-- The draw with an index, for a seed. -/
def ofSeed (seed : UInt64) (index : Nat) : Float :=
  let word := mix (seed + 0x9E3779B97F4A7C15 * (UInt64.ofNat index + 1))
  (word >>> 11).toFloat / 9007199254740992

end DialogueScript.Draws
