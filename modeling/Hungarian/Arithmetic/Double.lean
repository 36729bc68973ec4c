import Hungarian.Arithmetic

/-!
Costs as binary floating-point numbers of 64 bits.
-/

namespace Hungarian.Double

/-- The place of a number in the total order: negative numbers by falling magnitude, then positive
numbers by rising magnitude, with the zeros apart and the infinities and NaN at the ends. -/
def orderKey (x : Float) : UInt64 :=
  let bits := x.toBits
  if bits >>> 63 = 1 then ~~~bits else bits ||| 0x8000000000000000

def epsilon : Float := Float.ofBits 0x3CB0000000000000

def infinity : Float := Float.ofBits 0x7FF0000000000000

/-- The nearest number of 32 bits, widened again. -/
def toSingle (x : Float) : Float := x.toFloat32.toFloat

instance : CostArithmetic Float where
  decideLT := inferInstance
  decideLE := inferInstance
  zero := 0
  one := 1
  ofCount := Float.ofNat
  absolute := Float.abs
  lesser x y := if y < x || x.isNaN then y else x
  greater x y := if x < y || x.isNaN then y else x
  isFinite := Float.isFinite
  precedes x y := orderKey x < orderKey y
  ceiling := some infinity
  roundingUnit := 4 * epsilon

end Hungarian.Double
