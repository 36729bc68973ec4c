import Mathlib
import Hungarian.Arithmetic

/-!
Costs as rational numbers: nothing rounds and every number is finite.
-/

namespace Hungarian.Exact

instance : CostArithmetic ℚ where
  decideLT := inferInstance
  decideLE := inferInstance
  zero := 0
  one := 1
  ofCount count := count
  absolute x := |x|
  lesser := min
  greater := max
  isFinite _ := true
  precedes x y := x < y
  ceiling := none
  roundingUnit := 1 / 2 ^ 50

end Hungarian.Exact
