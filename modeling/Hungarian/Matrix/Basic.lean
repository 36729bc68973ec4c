import Hungarian.Arithmetic
import Hungarian.Error

/-!
A dense table of costs. The cell at `(row, col)` is what it costs to give the task `col` to the
agent `row`; cells are stored row after row.

The number of stored cells is not tied to the shape. Every builder of `Hungarian.Matrix.Build` makes
the two agree, which is `CostMatrix.WellShaped`; a matrix read from its serialized form need not.
-/

namespace Hungarian

structure CostMatrix (α : Type) where
  data : Array α
  rows : Nat
  cols : Nat
deriving BEq, DecidableEq, Repr

structure Cell (α : Type) where
  row : Nat
  col : Nat
  cost : α
deriving DecidableEq, Repr

namespace CostMatrix

variable {α : Type}

def WellShaped (matrix : CostMatrix α) : Prop :=
  matrix.data.size = matrix.rows * matrix.cols

instance (matrix : CostMatrix α) : Decidable matrix.WellShaped :=
  inferInstanceAs (Decidable (_ = _))

def isEmpty (matrix : CostMatrix α) : Bool :=
  matrix.rows == 0 || matrix.cols == 0

def isSquare (matrix : CostMatrix α) : Bool :=
  matrix.rows == matrix.cols

def side (matrix : CostMatrix α) : Nat :=
  max matrix.rows matrix.cols

def offset (matrix : CostMatrix α) (row col : Nat) : Nat :=
  row * matrix.cols + col

theorem offset_lt_mul {matrix : CostMatrix α} {row col : Nat} (hrow : row < matrix.rows)
    (hcol : col < matrix.cols) : matrix.offset row col < matrix.rows * matrix.cols :=
  calc row * matrix.cols + col
    _ < (row + 1) * matrix.cols := by
        rw [Nat.succ_mul]
        exact Nat.add_lt_add_left hcol _
    _ ≤ matrix.rows * matrix.cols := Nat.mul_le_mul_right _ hrow

theorem offset_lt_size {matrix : CostMatrix α} (shaped : matrix.WellShaped)
    {row col : Nat} (hrow : row < matrix.rows) (hcol : col < matrix.cols) :
    matrix.offset row col < matrix.data.size :=
  Nat.lt_of_lt_of_eq (offset_lt_mul hrow hcol) shaped.symm

/-- The stored cell at the offset of `(row, col)`; a column past the last one runs into the next
row. -/
def get? (matrix : CostMatrix α) (row col : Nat) : Option α :=
  matrix.data[matrix.offset row col]?

theorem exists_get?_eq_some {matrix : CostMatrix α} (shaped : matrix.WellShaped) {row col : Nat}
    (hrow : row < matrix.rows) (hcol : col < matrix.cols) :
    ∃ cost, matrix.get? row col = some cost :=
  ⟨_, Array.getElem?_eq_getElem (offset_lt_size shaped hrow hcol)⟩

def map {β : Type} (f : α → β) (matrix : CostMatrix α) : CostMatrix β where
  data := matrix.data.map f
  rows := matrix.rows
  cols := matrix.cols

theorem wellShaped_map {β : Type} {f : α → β} {matrix : CostMatrix α} (h : matrix.WellShaped) :
    (matrix.map f).WellShaped := by
  rw [WellShaped] at h
  rw [WellShaped, map, Array.size_map]
  exact h

theorem get?_map {β : Type} {f : α → β} {matrix : CostMatrix α} {row col : Nat} :
    (matrix.map f).get? row col = (matrix.get? row col).map f :=
  Array.getElem?_map

def modify? (matrix : CostMatrix α) (row col : Nat) (change : α → α) :
    Option (CostMatrix α) :=
  if inside : matrix.offset row col < matrix.data.size then
    let cost := change matrix.data[matrix.offset row col]
    some { matrix with data := matrix.data.set (matrix.offset row col) cost }
  else
    none

def set? (matrix : CostMatrix α) (row col : Nat) (cost : α) : Option (CostMatrix α) :=
  matrix.modify? row col fun _ => cost

def row? (matrix : CostMatrix α) (row : Nat) : Option (List α) :=
  if matrix.offset row matrix.cols ≤ matrix.data.size then
    some ((matrix.data.toList.drop (matrix.offset row 0)).take matrix.cols)
  else
    none

/-- All stored cells with their places. A matrix without columns has no place for a cell. -/
def cells? (matrix : CostMatrix α) : Option (List (Cell α)) :=
  if matrix.cols = 0 ∧ matrix.data.size ≠ 0 then
    none
  else
    some (matrix.data.toList.zipIdx.map fun (cost, index) =>
      { row := index / matrix.cols, col := index % matrix.cols, cost })

variable [CostArithmetic α]

def greatest? (matrix : CostMatrix α) : Option α :=
  CostArithmetic.greatest? matrix.data.toList

def checkFinite (matrix : CostMatrix α) : Except (Failure α) Unit :=
  match matrix.cells? with
  | none => .error (.faulted .divisionByZero)
  | some cells =>
    match cells.find? fun cell => !CostArithmetic.isFinite cell.cost with
    | some cell => .error (.refused (.nonFiniteCost cell.row cell.col cell.cost))
    | none => .ok ()

end CostMatrix

end Hungarian
