import DialogueScript.Number.Decimal

/-!
# Decimals and binary64 values

The double nearest to a decimal, a tie going to the even neighbour, and the
decimal that a finite double denotes exactly. All of it is exact arithmetic on
natural numbers.

Every finite magnitude is a natural number of least subnormals, that is of units
`2 ^ (-1074)`. With `m < 2 ^ 53` and a scale `s`, the magnitude of `m * 2 ^ s`
units has the bit pattern `s * 2 ^ 52 + m`, where `s` is 0 or `2 ^ 52 ≤ m`: the
hidden bit of `m` carries into the exponent field. The same formula rounds up into the
next exponent when `m` reaches `2 ^ 53`.
-/

namespace DialogueScript.Number

/-- How many binary places the least subnormal has. -/
def leastPlaces : Nat := 1074

/-- The place of the exponent field in a bit pattern, which is also the hidden bit
of a mantissa. -/
def exponentUnit : Nat := Nat.pow 2 52

def infinityBits : Nat := 2047 * exponentUnit

def signBit : Nat := Nat.pow 2 63

/-! ## From a ratio to the nearest double -/

/-- The natural number nearest to `n / d`; of two equally near ones the even
one. -/
def divNearest (n d : Nat) : Nat :=
  let quotient := n / d
  let twice := 2 * (n % d)
  if d < twice || (twice = d && quotient % 2 = 1) then quotient + 1 else quotient

/-- The bit pattern of the double nearest to `n / d`. The scale is the least at
which 53 bits hold the number. -/
def nearestBits (n d : Nat) : Nat :=
  let units := n * Nat.pow 2 leastPlaces
  let scale := (units / d).log2 - 52
  min infinityBits (scale * exponentUnit + divNearest units (d * Nat.pow 2 scale))

/-- The bit pattern of the double nearest to the magnitude of a decimal.
Magnitudes of at least `10 ^ 400` are infinite and those below `10 ^ (-400)` are
zero, so no power beyond these is computed. -/
def magnitudeBits (d : Decimal) : Nat :=
  if d.digits = 0 then 0
  else if 400 < d.exponent then infinityBits
  else if d.exponent + (d.digits.log2 + 1 : Nat) < -400 then 0
  else
    match d.exponent with
    | .ofNat e => nearestBits (d.digits * Nat.pow 10 e) 1
    | .negSucc e => nearestBits d.digits (Nat.pow 10 (e + 1))

/-- The double nearest to a decimal. A negative zero keeps its sign. -/
def ofDecimal (d : Decimal) : Float :=
  Float.ofBits (UInt64.ofNat (magnitudeBits d + if d.negative then signBit else 0))

def nan : Float := Float.ofBits 0x7FF8000000000000

def infinity : Float := Float.ofBits 0x7FF0000000000000

/-- The double that a numeral denotes, or `nan` for a text that is no numeral. -/
def ofNumeral (text : List Char) : Float :=
  match Decimal.ofText? text with
  | some d => ofDecimal d
  | none => nan

def ofInt (n : Int) : Float :=
  ofDecimal { negative := n < 0, digits := n.natAbs, exponent := 0 }

/-! ## From a double to its exact decimal -/

/-- The decimal that a finite magnitude denotes, from its bit pattern. A number
of units `2 ^ (-p)` is that number times `5 ^ p` of units `10 ^ (-p)`. -/
def exactDecimal (bits : Nat) : Decimal :=
  let field := bits / exponentUnit
  let fraction := bits % exponentUnit
  let mantissa := if field = 0 then fraction else exponentUnit + fraction
  let scale := field - 1
  if leastPlaces ≤ scale then
    { negative := false, digits := mantissa * Nat.pow 2 (scale - leastPlaces), exponent := 0 }
  else
    { negative := false, digits := mantissa * Nat.pow 5 (leastPlaces - scale),
      exponent := -(leastPlaces - scale : Nat) }

end DialogueScript.Number
