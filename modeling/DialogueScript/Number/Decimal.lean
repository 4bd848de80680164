/-!
# Decimal numerals

A decimal is a sign, a natural number of digits and a power of ten. This module
reads one from text and writes one back in positional notation.

The numerals read are an optional sign, digits with at most one point and at
least one digit, and an optional exponent: `12`, `1.`, `.5`, `-2.5e+3`. What is
written has no exponent, and no zeros at the end of a fraction.
-/

namespace DialogueScript

/-- The number `digits * 10 ^ exponent`, below zero if `negative`. -/
structure Decimal where
  negative : Bool
  digits : Nat
  exponent : Int
deriving DecidableEq, Repr

namespace Decimal

/-! ## Reading -/

def natOfDigits (text : List Char) : Nat :=
  text.foldl (fun n c => 10 * n + (c.toNat - '0'.toNat)) 0

/-- Cuts a sign off the front of a text; the flag says that it is `-`. -/
def cutSign : List Char → Bool × List Char
  | '-' :: rest => (true, rest)
  | '+' :: rest => (false, rest)
  | text => (false, text)

/-- The exponent part of a numeral: nothing at all, or `e` or `E`, an optional
sign and at least one digit. -/
def exponentOfText? : List Char → Option Int
  | [] => some 0
  | mark :: text =>
    let (negative, digits) := cutSign text
    if (mark = 'e' || mark = 'E') && !digits.isEmpty && digits.all Char.isDigit then
      some (if negative then -(natOfDigits digits : Int) else natOfDigits digits)
    else none

/-- Cuts a point and the digits behind it off the front of a text. -/
def cutFraction : List Char → List Char × List Char
  | '.' :: rest => (rest.takeWhile Char.isDigit, rest.dropWhile Char.isDigit)
  | text => ([], text)

def ofText? (text : List Char) : Option Decimal :=
  let (negative, unsigned) := cutSign text
  let whole := unsigned.takeWhile Char.isDigit
  let (fraction, tail) := cutFraction (unsigned.dropWhile Char.isDigit)
  if whole.isEmpty && fraction.isEmpty then none
  else (exponentOfText? tail).map fun exponent =>
    { negative, digits := natOfDigits (whole ++ fraction), exponent := exponent - fraction.length }

/-! ## Writing -/

def dropTrailingZeros (text : List Char) : List Char :=
  (text.reverse.dropWhile (· = '0')).reverse

/-- Digits with a point before the last `places` of them. The whole part has at
least one digit; a fraction of zeros is left out with its point. -/
def withPoint (digits : List Char) (places : Nat) : List Char :=
  let whole := digits.take (digits.length - places)
  let fraction := dropTrailingZeros
    (List.replicate (places - digits.length) '0' ++ digits.drop (digits.length - places))
  (if whole.isEmpty then ['0'] else whole) ++ if fraction.isEmpty then [] else '.' :: fraction

/-- Positional notation, without an exponent. -/
def toText (d : Decimal) : List Char :=
  let digits := Nat.toDigits 10 d.digits
  (if d.negative then ['-'] else []) ++
    match d.exponent with
    | .ofNat zeros => digits ++ List.replicate zeros '0'
    | .negSucc n => withPoint digits (n + 1)

end Decimal

end DialogueScript
