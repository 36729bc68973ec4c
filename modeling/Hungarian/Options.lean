import Hungarian.Arithmetic
import Hungarian.Error
import Hungarian.Forbidden

/-!
The settings of a solve.
-/

namespace Hungarian

structure Options (α : Type) where
  /-- Seek the greatest total instead of the least. -/
  maximize : Bool
  disallowed : ForbiddenPairs
  /-- The cost of the cells that make a matrix square. -/
  padValue : α
  /-- The reduced costs that count as zero are those up to the tolerance. -/
  tolerance : α
deriving BEq, DecidableEq, Repr

namespace Options

variable {α : Type}

def maximizing (options : Options α) : Options α :=
  { options with maximize := true }

def disallow (options : Options α) (row col : Nat) : Options α :=
  { options with disallowed := options.disallowed.insert row col }

def withDisallowed (options : Options α) (disallowed : ForbiddenPairs) : Options α :=
  { options with disallowed }

def withPadValue (options : Options α) (padValue : α) : Options α :=
  { options with padValue }

def withTolerance (options : Options α) (tolerance : α) : Options α :=
  { options with tolerance }

/-- Refuses the first forbidden pair outside the shape, then a pad value that is not finite, then a
tolerance that is not finite or negative. -/
def validate [CostArithmetic α] (options : Options α) (rows cols : Nat) :
    Except (SolveError α) Unit :=
  match options.disallowed.toList.find? fun pair => rows ≤ pair.1 || cols ≤ pair.2 with
  | some (row, col) => .error (.disallowedOutOfRange row col rows cols)
  | none =>
    if !CostArithmetic.isFinite options.padValue then
      .error (.nonFinitePadValue options.padValue)
    else if !CostArithmetic.isFinite options.tolerance || options.tolerance < 0 then
      .error (.invalidTolerance options.tolerance)
    else .ok ()

/-- Least total cost, no forbidden pair, padding that costs nothing and a tolerance of 10⁻⁹. -/
def standard : Options Float where
  maximize := false
  disallowed := .empty
  padValue := 0
  tolerance := 1e-9

end Options

end Hungarian
