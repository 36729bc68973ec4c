import Hungarian.Arithmetic
import Hungarian.Problem.Basic

/-!
Dual variables of a problem: a potential for each row and each column. Potentials are feasible when
no cell costs less than the sum of its two potentials; then the sum of all potentials is a lower
bound on the cost of every perfect matching.
-/

namespace Hungarian

structure Potentials (α : Type) (size : Nat) where
  rows : Vector α size
  cols : Vector α size
deriving DecidableEq, Repr

namespace Potentials

open CostArithmetic

variable {α : Type} {size : Nat} [CostArithmetic α]

/-- Each row at its least cost, then each column at the least cost that is left in it. -/
def initial (problem : Problem α size) : Potentials α size :=
  let rows := Vector.ofFn fun row => (least? (problem.costs.row row).toList).getD 0
  let cols := Vector.ofFn fun col =>
    (least? ((List.finRange size).map fun row => problem.cost row col - rows.get row)).getD 0
  { rows, cols }

theorem rows_initial (problem : Problem α size) (row : Fin size) :
    (initial problem).rows.get row = (least? (problem.costs.row row).toList).getD 0 :=
  get_ofFn _ row

theorem cols_initial (problem : Problem α size) (col : Fin size) :
    (initial problem).cols.get col =
      (least? ((List.finRange size).map fun row =>
        problem.cost row col - (initial problem).rows.get row)).getD 0 :=
  get_ofFn _ col

def reducedCost (problem : Problem α size) (potentials : Potentials α size)
    (row col : Fin size) : α :=
  problem.cost row col - potentials.rows.get row - potentials.cols.get col

def tighten (potentials : Potentials α size) (delta : α) (rows cols : Vector Bool size) :
    Potentials α size where
  rows := Vector.ofFn fun row =>
    if rows.get row then potentials.rows.get row + delta else potentials.rows.get row
  cols := Vector.ofFn fun col =>
    if cols.get col then potentials.cols.get col - delta else potentials.cols.get col

theorem rows_tighten (potentials : Potentials α size) (delta : α) (rows cols : Vector Bool size)
    (row : Fin size) :
    (potentials.tighten delta rows cols).rows.get row =
      if rows.get row then potentials.rows.get row + delta else potentials.rows.get row :=
  get_ofFn _ row

theorem cols_tighten (potentials : Potentials α size) (delta : α) (rows cols : Vector Bool size)
    (col : Fin size) :
    (potentials.tighten delta rows cols).cols.get col =
      if cols.get col then potentials.cols.get col - delta else potentials.cols.get col :=
  get_ofFn _ col

def dualObjective (potentials : Potentials α size) : α :=
  total potentials.rows.toList + total potentials.cols.toList

/-- How far from zero the reduced cost of a cell may be and count as zero: the tolerance of the
problem, and the rounding error of the cell's three operands. -/
def allowance (problem : Problem α size) (potentials : Potentials α size)
    (row col : Fin size) : α :=
  let magnitude := greater (absolute (problem.cost row col))
    (greater (absolute (potentials.rows.get row)) (absolute (potentials.cols.get col)))
  problem.epsilon + roundingUnit * magnitude

def isTight (problem : Problem α size) (potentials : Potentials α size)
    (row col : Fin size) : Bool :=
  absolute (potentials.reducedCost problem row col) ≤ potentials.allowance problem row col

def isFeasible (problem : Problem α size) (potentials : Potentials α size)
    (part : Fin size → Fin size → Bool) : Bool :=
  (Square.places size).all fun (row, col) =>
    !part row col ||
      -potentials.allowance problem row col ≤ potentials.reducedCost problem row col

end Potentials

end Hungarian
