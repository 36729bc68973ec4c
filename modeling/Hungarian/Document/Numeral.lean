import Hungarian.Document.Basic

/-!
Numbers of documents from their written form: a sign, digits, a point among them, and a power of
ten.
-/

namespace Hungarian

structure Numeral where
  isNegative : Bool
  digits : Nat
  power : Int
  /-- There is neither a point nor a power of ten in the written form. -/
  isPlain : Bool
deriving DecidableEq, Repr

namespace Numeral

def valueOf (digits : List Char) : Nat :=
  digits.foldl (fun value digit => 10 * value + (digit.toNat - '0'.toNat)) 0

def powerOf : List Char → Int
  | '-' :: digits => -valueOf digits
  | '+' :: digits => valueOf digits
  | digits => valueOf digits

def isPowerMark (c : Char) : Bool :=
  c == 'e' || c == 'E'

def ofChars (chars : List Char) : Numeral :=
  let isNegative := chars.head? == some '-'
  let unsigned := if isNegative then chars.tail else chars
  let significand := unsigned.takeWhile fun c => !isPowerMark c
  let power := (unsigned.dropWhile fun c => !isPowerMark c).drop 1
  let whole := significand.takeWhile (· != '.')
  let fraction := (significand.dropWhile (· != '.')).drop 1
  { isNegative
    digits := valueOf (whole ++ fraction)
    power := powerOf power - fraction.length
    isPlain := unsigned.all Char.isDigit }

def toInt (numeral : Numeral) : Int :=
  if numeral.isNegative then -numeral.digits else numeral.digits

def toFloat (numeral : Numeral) : Float :=
  let magnitude := Float.ofScientific numeral.digits (numeral.power < 0) numeral.power.natAbs
  if numeral.isNegative then -magnitude else magnitude

end Numeral

/-- A plain numeral is an integer if 64 bits can hold it, with a sign or without. Any other numeral
is a floating-point number, and so is zero with a sign. -/
def Document.ofNumeral (numeral : Numeral) : Document :=
  let value := numeral.toInt
  let isSignedZero := numeral.isNegative && numeral.digits == 0
  if numeral.isPlain ∧ !isSignedZero ∧ leastInteger ≤ value ∧ value < indexLimit then
    .integer value
  else
    .real numeral.toFloat

end Hungarian
