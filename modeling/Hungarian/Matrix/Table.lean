import Hungarian.Matrix.ColumnMajor

/-!
The exchange of cost matrices with a library of linear algebra. A matrix is handed over as one slice
of its cells and taken back cell by cell, so that it does not matter how the library stores a table.
-/

namespace Hungarian

structure TableLibrary (α : Type) where
  Table : Type
  fromRowSlice? : (rows cols : Nat) → List α → Option Table
  shape : Table → Nat × Nat
  get? : Table → (row col : Nat) → Option α
  transpose : Table → Table

namespace CostMatrix

variable {α : Type} (library : TableLibrary α)

def toTable? (matrix : CostMatrix α) : Option library.Table :=
  library.fromRowSlice? matrix.rows matrix.cols matrix.data.toList

def ofTable? (table : library.Table) : Option (CostMatrix α) := do
  let (rows, cols) := library.shape table
  let costs ← (List.range rows).mapM fun row =>
    (List.range cols).mapM fun col => library.get? table row col
  return { data := costs.flatten.toArray, rows, cols }

def viaTable? (matrix : CostMatrix α) : Option (CostMatrix α) := do
  ofTable? library (← matrix.toTable? library)

def viaTranspose? (matrix : CostMatrix α) : Option (CostMatrix α) := do
  ofTable? library (library.transpose (← matrix.toTable? library))

end CostMatrix

namespace TableLibrary

variable {α : Type}

/-- What is documented of the library: a table made from a slice has the given shape and reads the
slice row after row, every place inside a shape is read, and a transpose swaps rows and columns. -/
structure IsDocumented (library : TableLibrary α) : Prop where
  exists_fromRowSlice? : ∀ rows cols entries, entries.length = rows * cols →
    ∃ table, library.fromRowSlice? rows cols entries = some table ∧
      library.shape table = (rows, cols) ∧
      ∀ row < rows, ∀ col < cols, library.get? table row col = entries[row * cols + col]?
  isSome_get? : ∀ table, ∀ row < (library.shape table).1, ∀ col < (library.shape table).2,
    (library.get? table row col).isSome
  shape_transpose : ∀ table,
    library.shape (library.transpose table) = ((library.shape table).2, (library.shape table).1)
  get?_transpose : ∀ table, ∀ row < (library.shape table).1, ∀ col < (library.shape table).2,
    library.get? (library.transpose table) col row = library.get? table row col

def byColumns (α : Type) : TableLibrary α where
  Table := (rows : Nat) × (cols : Nat) × ColumnMajor α rows cols
  fromRowSlice? rows cols entries :=
    let matrix : CostMatrix α := { data := entries.toArray, rows, cols }
    if shaped : matrix.WellShaped then some ⟨rows, cols, matrix.toColumnMajor shaped⟩ else none
  shape table := (table.1, table.2.1)
  get? table row col :=
    if inside : row < table.1 ∧ col < table.2.1 then
      some (table.2.2.get ⟨row, inside.1⟩ ⟨col, inside.2⟩)
    else none
  transpose table := ⟨table.2.1, table.1, table.2.2.transpose⟩

end TableLibrary

end Hungarian
