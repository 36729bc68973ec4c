/-!
The numbers that costs are counted in. A solver only needs the operations of `CostArithmetic`, and
every definition of this library that computes with costs is stated over them, so that the same
definitions run on floating-point numbers and are reasoned about on exact ones.

`CostArithmetic` asks for no laws: a sum may round, overflow, or not be a number at all.
-/

namespace Hungarian

class CostArithmetic (α : Type) extends
    Add α, Sub α, Mul α, Neg α, Zero α, One α, LT α, LE α where
  decideLT : DecidableLT α
  decideLE : DecidableLE α
  /-- The cost that stands for a count. -/
  ofCount : Nat → α
  absolute : α → α
  /-- The smaller of two costs; where only one of them is a number, that one. -/
  lesser : α → α → α
  /-- The larger of two costs; where only one of them is a number, that one. -/
  greater : α → α → α
  isFinite : α → Bool
  /-- A strict order in which any two costs that can be told apart are comparable. -/
  precedes : α → α → Bool
  /-- The cost above all others, if the numbers have one. -/
  ceiling : Option α
  /-- The error of a reduced cost in proportion to its largest operand. -/
  roundingUnit : α

namespace CostArithmetic

variable {α : Type} [CostArithmetic α]

instance : DecidableLT α := decideLT

instance : DecidableLE α := decideLE

def belowCeiling (cost : α) : Bool :=
  match (ceiling : Option α) with
  | none => true
  | some top => decide (cost < top)

def least? : List α → Option α
  | [] => none
  | first :: rest => some (rest.foldl lesser first)

def greatest? : List α → Option α
  | [] => none
  | first :: rest => some (rest.foldl greater first)

def total (costs : List α) : α := costs.foldl (· + ·) 0

end CostArithmetic

end Hungarian
