import Hungarian.Matrix.Basic
import Hungarian.Memory
import Hungarian.Options
import Hungarian.Problem.Basic

/-!
From a matrix and its options to a square minimization problem: the matrix is padded, then every
cost is taken from the greatest one when a maximum is sought, and last the forbidden cells are given
the sentinel, a cost so high that one forbidden cell outweighs any choice of the others.

`normalize` takes any matrix. `normalizeInMemory` is for matrices whose square there is room for, and
faults for others; it makes the same problems.
-/

namespace Hungarian

namespace CostMatrix

variable {α : Type}

/-- The matrix in the upper left corner of its square, with the pad value elsewhere. It is refused
when it stores more cells than the square has rows for. -/
def padded (matrix : CostMatrix α) (padValue : α) :
    Except (Failure α) (Square α matrix.side) :=
  if matrix.side * matrix.cols < matrix.data.size then
    .error (.faulted .outOfRange)
  else
    .ok <| .ofFn fun row col =>
      if col < matrix.cols then (matrix.get? row col).getD padValue else padValue

end CostMatrix

namespace ForbiddenPairs

def mask (pairs : ForbiddenPairs) (size : Nat) : Square Bool size :=
  .ofFn fun row col => pairs.contains row col

end ForbiddenPairs

namespace Problem

open CostArithmetic

variable {α : Type} {size : Nat}

def freeCosts (costs : Square α size) (forbidden : Square Bool size) : List α :=
  (Square.places size).filterMap fun (row, col) =>
    if forbidden.get row col then none else some (costs.get row col)

variable [CostArithmetic α]

def complement (costs : Square α size) : Square α size :=
  let top := (greatest? costs.toList).getD 0
  .ofFn fun row col => top - costs.get row col

/-- The cost of a forbidden cell, as high above the greatest cost as `size` times the spread of the
costs, and one more. -/
def sentinelOver (size : Nat) (costs : List α) : α :=
  let low := (least? costs).getD 0
  let high := (greatest? costs).getD 0
  high + ofCount size * (high - low) + 1

def ofSquare (rows cols : Nat) (costs : Square α size) (forbidden : Square Bool size)
    (epsilon : α) : Except (SolveError α) (Problem α size) :=
  let sentinel := sentinelOver size (freeCosts costs forbidden)
  if isFinite sentinel then
    .ok {
      rows
      cols
      costs := .ofFn fun row col =>
        if forbidden.get row col then sentinel else costs.get row col
      forbidden
      sentinel
      epsilon }
  else
    .error .costOverflow

theorem cost_ofSquare {rows cols : Nat} {costs : Square α size} {forbidden : Square Bool size}
    {epsilon : α} {problem : Problem α size}
    (h : ofSquare rows cols costs forbidden epsilon = .ok problem) (row col : Fin size) :
    problem.cost row col =
      if problem.isForbidden row col then problem.sentinel else costs.get row col := by
  unfold ofSquare at h
  dsimp only at h
  split at h
  · cases h
    exact Square.get_ofFn _ row col
  · cases h

def check (matrix : CostMatrix α) (options : Options α) : Except (Failure α) Unit :=
  if matrix.isEmpty then
    .error (.refused .emptyMatrix)
  else do
    matrix.checkFinite
    (options.validate matrix.rows matrix.cols).mapError .refused

def normalize (matrix : CostMatrix α) (options : Options α) :
    Except (Failure α) (Problem α matrix.side) := do
  check matrix options
  let padded ← matrix.padded options.padValue
  let costs := if options.maximize then complement padded else padded
  let forbidden := options.disallowed.mask matrix.side
  (ofSquare matrix.rows matrix.cols costs forbidden options.tolerance).mapError .refused

/-- Refuses what `check` refuses before it faults, since the square is only made after the checks. -/
def checkRoom (matrix : CostMatrix α) (options : Options α) : Except (Failure α) Unit :=
  if matrix.side < sideLimit then .ok ()
  else do
    check matrix options
    .error (.faulted .oversized)

def normalizeInMemory (matrix : CostMatrix α) (options : Options α) :
    Except (Failure α) (Problem α matrix.side) := do
  checkRoom matrix options
  normalize matrix options

theorem normalizeInMemory_of_side_lt (matrix : CostMatrix α) (options : Options α)
    (h : matrix.side < sideLimit) :
    normalizeInMemory matrix options = normalize matrix options := by
  rw [normalizeInMemory, checkRoom, if_pos h]
  rfl

theorem normalizeInMemory_of_le_side (matrix : CostMatrix α) (options : Options α)
    (h : sideLimit ≤ matrix.side) : normalizeInMemory matrix options =
      (check matrix options).bind fun _ => .error (.faulted .oversized) := by
  rw [normalizeInMemory, checkRoom, if_neg (Nat.not_lt.mpr h)]
  cases check matrix options <;> rfl

end Problem

end Hungarian
