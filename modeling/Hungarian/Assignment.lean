import Hungarian.Matrix.Basic
import Hungarian.Stage

/-!
The answer to the caller: which row has which column, in the shape of the caller's matrix.
-/

namespace Hungarian

structure Assignment (α : Type) where
  /-- The column of each row. -/
  cols : List (Option Nat)
  /-- The row of each column. -/
  rows : List (Option Nat)
  /-- Whether the potentials certify the assignment. -/
  isOptimal : Bool
  /-- The total cost of the assigned pairs, as the caller stated them. -/
  cost : α
  /-- The forbidden pairs of the matching, which are left out of the assignment. -/
  stripped : List (Nat × Nat)
  /-- The sum of all potentials. -/
  dualBound : α
deriving DecidableEq, Repr

def greatestSigned : Nat := 9223372036854775807

/-- Indices as signed numbers, with -1 for a missing index and for one that is too great. -/
def signedIndices (indices : List (Option Nat)) : List Int :=
  indices.map fun
    | some index => if index ≤ greatestSigned then index else -1
    | none => -1

namespace Assignment

variable {α : Type}

def assignedCount (assignment : Assignment α) : Nat :=
  assignment.cols.countP Option.isSome

def pairs (assignment : Assignment α) : List (Nat × Nat) :=
  assignment.cols.zipIdx.filterMap fun (col?, row) => col?.map fun col => (row, col)

def signedCols (assignment : Assignment α) : List Int :=
  signedIndices assignment.cols

def signedRows (assignment : Assignment α) : List Int :=
  signedIndices assignment.rows

def isComplete (assignment : Assignment α) : Bool :=
  assignment.assignedCount == min assignment.cols.length assignment.rows.length

end Assignment

namespace Solution

variable {α : Type} {size : Nat}

def kept (problem : Problem α size) (solution : Solution α size) : List (Fin size × Fin size) :=
  solution.matching.pairs.filter fun (row, col) => problem.isAllowed row col

def stripped (problem : Problem α size) (solution : Solution α size) :
    List (Fin size × Fin size) :=
  solution.matching.pairs.filter fun (row, col) =>
    !problem.isPadding row col && problem.isForbidden row col

variable [CostArithmetic α]

/-- Whether the potentials prove the matching optimal: they are feasible on the cells that may be
assigned, every matched cell is tight, and every row is matched. -/
def isCertified (problem : Problem α size) (solution : Solution α size) : Bool :=
  solution.potentials.isFeasible problem problem.isAllowed &&
    (solution.matching.pairs.all fun (row, col) => solution.potentials.isTight problem row col) &&
    solution.matching.count == size

def addCost (matrix : CostMatrix α) (sum : α) (cell : Fin size × Fin size) :
    Except (Failure α) α :=
  match matrix.get? cell.1 cell.2 with
  | some cost => .ok (sum + cost)
  | none => .error (.faulted .outOfRange)

def costOf (matrix : CostMatrix α) (cells : List (Fin size × Fin size)) :
    Except (Failure α) α :=
  cells.foldlM (addCost matrix) 0

/-- The assignment of a matched problem, with the cost of its cells. Of several rows with one column
the column names the last. -/
def toAssignment (problem : Problem α size) (solution : Solution α size) (cost : α) :
    Assignment α :=
  let kept := solution.kept problem
  let stripped := solution.stripped problem
  { cols := (List.range problem.rows).map fun row =>
      (kept.find? fun cell => cell.1.val == row).map fun cell => cell.2.val
    rows := (List.range problem.cols).map fun col =>
      (kept.reverse.find? fun cell => cell.2.val == col).map fun cell => cell.1.val
    isOptimal := stripped.isEmpty && solution.isCertified problem
    cost
    stripped := stripped.map fun cell => (cell.1.val, cell.2.val)
    dualBound := solution.potentials.dualObjective }

def extract (matrix : CostMatrix α) (problem : Problem α size) (solution : Solution α size) :
    Except (Failure α) (Assignment α) :=
  (costOf matrix (solution.kept problem)).map (solution.toAssignment problem)

theorem extract_eq_ok_iff {matrix : CostMatrix α} {problem : Problem α size}
    {solution : Solution α size} {assignment : Assignment α} :
    solution.extract matrix problem = .ok assignment ↔
    ∃ cost, costOf matrix (solution.kept problem) = .ok cost ∧
      solution.toAssignment problem cost = assignment := by
  rw [extract]
  cases costOf matrix (solution.kept problem) with
  | error failure => simp [Except.map]
  | ok cost => simp [Except.map]

end Solution

end Hungarian
