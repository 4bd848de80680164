import DialogueScript.Number.Binary

/-!
# The text of a number

A number is written with the fewest digits that read back to it. Among decimals
with that many digits the nearest one is taken, and of two equally near ones the
larger. The notation is positional at every magnitude, zero has no sign, and the
values that are not finite are `NaN`, `Infinity` and `-Infinity`.

A candidate is tested by reading it, so what is written reads back by
construction. For each count of digits only the two neighbours of the exact
value need a test: if any decimal on that grid reads back, one of them does.
-/

namespace DialogueScript.Number

/-- Of the two decimals with `count` digits next to the exact value, the first
that reads back to `bits`, the nearer one being tried first. -/
def cutTo? (bits : Nat) (exact : Decimal) (count : Nat) : Option Decimal :=
  let dropped := (Nat.toDigits 10 exact.digits).length - count
  let step := Nat.pow 10 dropped
  let lower := { exact with digits := exact.digits / step, exponent := exact.exponent + dropped }
  let upper := { lower with digits := lower.digits + 1 }
  let byDistance := if step ≤ 2 * (exact.digits % step) then [upper, lower] else [lower, upper]
  byDistance.find? fun d => magnitudeBits d = bits

/-- The shortest decimal that reads back to a finite magnitude. Seventeen digits
identify every double; the exact value stands in should they not. -/
def shortest (bits : Nat) : Decimal :=
  let exact := exactDecimal bits
  ((List.range' 1 17).findSome? (cutTo? bits exact)).getD exact

def toText (x : Float) : String :=
  if x.isNaN then "NaN"
  else
    let bits := x.toBits.toNat
    let magnitude := bits % signBit
    let negative := signBit ≤ bits && magnitude ≠ 0
    if magnitude = infinityBits then if negative then "-Infinity" else "Infinity"
    else String.ofList { shortest magnitude with negative }.toText

example : toText (ofNumeral ['0', '.', '1']) = "0.1" := by decide +kernel

example : toText (ofNumeral ['-', '0']) = "0" := by decide +kernel

/-- The exact value lies halfway between two decimals that both read back. -/
example : toText (Float.ofBits 0x4310000000000001) = "1125899906842624.3" := by decide +kernel

end DialogueScript.Number
