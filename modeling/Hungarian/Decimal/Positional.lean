/-!
Decimal text of a 64-bit floating-point number. The text has the fewest digits that read back as
the same number, of those the nearest ones, and never an exponent.
-/

namespace Hungarian.Decimal

def fractionLimit : Nat := 1 <<< 52

def exponentLimit : Nat := 1 <<< 11

def powerOfTen (exponent : Nat) : Nat := Nat.pow 10 exponent

/-- The numbers that round to one binary number, as fractions over a common `scale`. The two ends
belong to the interval when it is `closed`. -/
structure RoundingInterval where
  low : Nat
  value : Nat
  high : Nat
  scale : Nat
  closed : Bool

namespace RoundingInterval

/-- The interval around the positive number with the given exponent and fraction fields. It
reaches half way to both neighbours, and the lower neighbour of a power of two is twice as near. -/
def ofFields (exponent fraction : Nat) : RoundingInterval :=
  let significand := if exponent = 0 then fraction else fraction + fractionLimit
  let power := max exponent 1
  let quarters := 1 <<< (power - 1077)
  let below := if fraction = 0 ∧ 1 < exponent then 1 else 2
  { low := (4 * significand - below) * quarters
    value := 4 * significand * quarters
    high := (4 * significand + 2) * quarters
    scale := 1 <<< (1077 - power)
    closed := significand % 2 = 0 }

def contains (interval : RoundingInterval) (numerator denominator : Nat) : Bool :=
  let low := interval.low * denominator
  let high := interval.high * denominator
  let point := numerator * interval.scale
  if interval.closed then low ≤ point && point ≤ high else low < point && point < high

/-- The multiple of a power of ten in the interval that is nearest to the number, the upper one of
two that are equally near. -/
def nearestMultiple? (interval : RoundingInterval) (power : Int) : Option Nat :=
  let up := powerOfTen power.toNat
  let down := powerOfTen (-power).toNat
  let numerator := interval.value * down
  let denominator := interval.scale * up
  let floor := numerator / denominator
  match interval.contains (floor * up) down, interval.contains ((floor + 1) * up) down with
  | true, true =>
    if 2 * (numerator % denominator) < denominator then some floor else some (floor + 1)
  | true, false => some floor
  | false, true => some (floor + 1)
  | false, false => none

end RoundingInterval

structure Scaled where
  digits : Nat
  power : Int

/-- The powers of ten from above every finite number down to below the least distance of two. -/
def powers : List Int := (List.range 634).map fun index : Nat => (309 - index : Int)

/-- The multiple of the greatest power of ten that still rounds to the number. -/
def shortest (interval : RoundingInterval) : Scaled :=
  let found := powers.findSome? fun power =>
    (interval.nearestMultiple? power).map fun digits => Scaled.mk digits power
  found.getD ⟨0, 0⟩

def Scaled.positional (number : Scaled) : String :=
  if 0 ≤ number.power then
    toString (number.digits * powerOfTen number.power.toNat)
  else
    let places := (-number.power).toNat
    let fraction := toString (number.digits % powerOfTen places)
    let zeros := String.ofList (List.replicate (places - fraction.length) '0')
    toString (number.digits / powerOfTen places) ++ "." ++ zeros ++ fraction

def magnitude (bits : UInt64) : String :=
  let exponent := (bits >>> 52).toNat % exponentLimit
  let fraction := bits.toNat % fractionLimit
  if exponent = 0 ∧ fraction = 0 then "0"
  else (shortest (.ofFields exponent fraction)).positional

def positional (x : Float) : String :=
  if x.isNaN then "NaN"
  else
    let bits := x.toBits
    let sign := if bits >>> 63 = 1 then "-" else ""
    sign ++ if x.isInf then "inf" else magnitude bits

end Hungarian.Decimal
