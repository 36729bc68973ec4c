import Hungarian.Matrix.Basic
import Hungarian.Square

/-!
Tables stored column after column, as linear algebra wants them, and their exchange with cost
matrices.
-/

namespace Hungarian

structure ColumnMajor (α : Type) (rows cols : Nat) where
  columns : Vector (Vector α rows) cols

namespace ColumnMajor

variable {α : Type} {rows cols : Nat}

def get (table : ColumnMajor α rows cols) (row : Fin rows) (col : Fin cols) : α :=
  (table.columns.get col).get row

def ofFn (cell : Fin rows → Fin cols → α) : ColumnMajor α rows cols :=
  ⟨Vector.ofFn fun col => Vector.ofFn fun row => cell row col⟩

def transpose (table : ColumnMajor α rows cols) : ColumnMajor α cols rows :=
  ofFn fun row col => table.get col row

@[simp]
theorem get_ofFn (cell : Fin rows → Fin cols → α) (row : Fin rows) (col : Fin cols) :
    (ofFn cell).get row col = cell row col := by
  unfold get ofFn
  rw [Hungarian.get_ofFn, Hungarian.get_ofFn]

@[simp]
theorem get_transpose (table : ColumnMajor α rows cols) (row : Fin cols) (col : Fin rows) :
    table.transpose.get row col = table.get col row :=
  get_ofFn _ row col

def entries (table : ColumnMajor α rows cols) : List α :=
  table.columns.toList.flatMap Vector.toList

def toMatrix (table : ColumnMajor α rows cols) : CostMatrix α :=
  { data := ((List.finRange rows).flatMap fun row =>
      (List.finRange cols).map fun col => table.get row col).toArray
    rows
    cols }

end ColumnMajor

namespace CostMatrix

variable {α : Type}

def toColumnMajor (matrix : CostMatrix α) (shaped : matrix.WellShaped) :
    ColumnMajor α matrix.rows matrix.cols :=
  .ofFn fun row col =>
    have inside := offset_lt_size shaped row.isLt col.isLt
    matrix.data[matrix.offset row col]

end CostMatrix

end Hungarian
