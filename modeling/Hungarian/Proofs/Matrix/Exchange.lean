import Hungarian.Matrix.Table
import Hungarian.Proofs.Matrix.Views

/-!
# Matrices through the tables of a library

What a library documents of its tables is enough to hand a matrix over and to take it back as it
was, or to take its transpose back. The order in which the library stores a table plays no part.
-/

namespace Hungarian

variable {α : Type} {library : TableLibrary α} {matrix matrix' flipped : CostMatrix α}

/-! ### Costs in stored columns -/

namespace CostMatrix

theorem get?_eq_get_toColumnMajor (hshaped : matrix.WellShaped) {row col : Nat}
    (hrow : row < matrix.rows) (hcol : col < matrix.cols) : matrix.get? row col =
      some ((matrix.toColumnMajor hshaped).get ⟨row, hrow⟩ ⟨col, hcol⟩) := by
  unfold toColumnMajor
  rw [ColumnMajor.get_ofFn]
  exact Array.getElem?_eq_getElem (offset_lt_size hshaped hrow hcol)

/-- The matrix of a table is read where the table is. -/
theorem get?_toMatrix {rows cols row col : Nat} (table : ColumnMajor α rows cols)
    (hrow : row < rows) (hcol : col < cols) :
    table.toMatrix.get? row col = some (table.get ⟨row, hrow⟩ ⟨col, hcol⟩) := by
  have hwide : ∀ entries ∈ (List.finRange rows).map fun row =>
      (List.finRange cols).map fun col => table.get row col, entries.length = cols := by
    simp
  change ((List.finRange rows).flatMap fun row => _).toArray[row * cols + col]? = _
  rw [List.getElem?_toArray, List.flatMap_def, getElem?_flatten_of_forall hwide hcol]
  simp [hrow, hcol]

end CostMatrix

/-! ### Tables of a matrix -/

structure TableLibrary.Holds (library : TableLibrary α) (table : library.Table)
    (matrix : CostMatrix α) : Prop where
  shape_eq : library.shape table = (matrix.rows, matrix.cols)
  get?_eq : ∀ row < matrix.rows, ∀ col < matrix.cols,
    library.get? table row col = matrix.get? row col

namespace CostMatrix

structure Flips (flipped matrix : CostMatrix α) : Prop where
  rows_eq : flipped.rows = matrix.cols
  cols_eq : flipped.cols = matrix.rows
  get?_eq : ∀ row < matrix.rows, ∀ col < matrix.cols,
    flipped.get? col row = matrix.get? row col

/-- To transpose twice is to do nothing. -/
theorem Flips.eq {again : CostMatrix α} (hshaped : matrix.WellShaped) (hshaped' : again.WellShaped)
    (hagain : again.Flips flipped) (hflips : flipped.Flips matrix) : again = matrix := by
  refine eq_of_get?_eq hshaped hshaped' (hagain.rows_eq.trans hflips.cols_eq)
    (hagain.cols_eq.trans hflips.rows_eq) fun row hrow col hcol => ?_
  rw [hagain.get?_eq col (hcol.trans_eq hflips.rows_eq.symm) row
    (hrow.trans_eq hflips.cols_eq.symm), hflips.get?_eq row hrow col hcol]

end CostMatrix

namespace TableLibrary

variable {table : library.Table}

/-- A table determines its matrix. -/
theorem Holds.matrix_eq (hshaped : matrix.WellShaped) (hshaped' : matrix'.WellShaped)
    (hholds : library.Holds table matrix) (hholds' : library.Holds table matrix') :
    matrix' = matrix := by
  obtain ⟨hrows, hcols⟩ := Prod.mk.inj (hholds'.shape_eq.symm.trans hholds.shape_eq)
  refine CostMatrix.eq_of_get?_eq hshaped hshaped' hrows hcols fun row hrow col hcol => ?_
  rw [← hholds.get?_eq row hrow col hcol,
    hholds'.get?_eq row (hrow.trans_eq hrows.symm) col (hcol.trans_eq hcols.symm)]

namespace IsDocumented

variable (documented : library.IsDocumented)

include documented

theorem exists_toTable? (hshaped : matrix.WellShaped) :
    ∃ table, matrix.toTable? library = some table ∧ library.Holds table matrix := by
  obtain ⟨table, htable, hshape, hget⟩ :=
    documented.exists_fromRowSlice? matrix.rows matrix.cols matrix.data.toList hshaped
  refine ⟨table, htable, hshape, fun row hrow col hcol => ?_⟩
  rw [hget row hrow col hcol, Array.getElem?_toList]
  rfl

/-- Every table is taken back, as the matrix that it holds. -/
theorem exists_ofTable? (table : library.Table) :
    ∃ matrix, CostMatrix.ofTable? library table = some matrix ∧ matrix.WellShaped ∧
      library.Holds table matrix := by
  obtain ⟨⟨rows, cols⟩, hshape⟩ : ∃ shape, library.shape table = shape := ⟨_, rfl⟩
  have hread : ∀ place ∈ List.range rows ×ˢ List.range cols,
      ∃ cost, library.get? table place.1 place.2 = some cost := by
    intro place hplace
    obtain ⟨hrow, hcol⟩ := CostMatrix.mem_places.mp hplace
    refine Option.isSome_iff_exists.mp (documented.isSome_get? table _ ?_ _ ?_) <;> rwa [hshape]
  obtain ⟨costs, hcosts⟩ := exists_forall₂_iff.mpr hread
  have hlength : costs.length = rows * cols := by
    rw [← hcosts.length_eq, List.length_product, List.length_range, List.length_range]
  have hscan := mapM_eq_some_iff.mpr hcosts
  rw [← flatten_mapM_mapM] at hscan
  obtain ⟨lists, hlists, rfl⟩ := Option.map_eq_some_iff.mp hscan
  refine ⟨{ data := lists.flatten.toArray, rows, cols }, ?_, hlength, hshape,
    fun row hrow col hcol => ?_⟩
  · rw [CostMatrix.ofTable?, hshape]
    change (List.mapM _ _ >>= _) = _
    rw [hlists]
    rfl
  · obtain ⟨cost, hcost, hget⟩ :=
      exists_getElem?_of_forall₂ hcosts (CostMatrix.getElem?_places hrow hcol)
    exact hget.trans ((List.getElem?_toArray ..).trans hcost).symm

theorem ofTable?_eq_some (hshaped : matrix.WellShaped) (hholds : library.Holds table matrix) :
    CostMatrix.ofTable? library table = some matrix := by
  obtain ⟨matrix', hmatrix', hshaped', hholds'⟩ := documented.exists_ofTable? table
  rwa [← hholds.matrix_eq hshaped hshaped' hholds']

theorem viaTable?_eq_some (hshaped : matrix.WellShaped) :
    matrix.viaTable? library = some matrix := by
  obtain ⟨table, htable, hholds⟩ := documented.exists_toTable? hshaped
  rw [CostMatrix.viaTable?, htable]
  exact documented.ofTable?_eq_some hshaped hholds

/-- The way through the library there and back gives the transpose. -/
theorem exists_viaTranspose? (hshaped : matrix.WellShaped) :
    ∃ flipped, matrix.viaTranspose? library = some flipped ∧ flipped.WellShaped ∧
      flipped.Flips matrix := by
  obtain ⟨table, htable, hholds⟩ := documented.exists_toTable? hshaped
  obtain ⟨flipped, hflipped, hshaped', hholds'⟩ :=
    documented.exists_ofTable? (library.transpose table)
  have hshape := hholds'.shape_eq.symm.trans (documented.shape_transpose table)
  rw [hholds.shape_eq] at hshape
  obtain ⟨hrows, hcols⟩ := Prod.mk.inj hshape
  refine ⟨flipped, ?_, hshaped', hrows, hcols, fun row hrow col hcol => ?_⟩
  · rw [CostMatrix.viaTranspose?, htable]
    exact hflipped
  · rw [← hholds'.get?_eq col (hcol.trans_eq hrows.symm) row (hrow.trans_eq hcols.symm),
      ← hholds.get?_eq row hrow col hcol]
    apply documented.get?_transpose <;> rwa [hholds.shape_eq]

/-- What is taken back of a table makes a table with the same shape and entries. -/
theorem exists_ofTable?_toTable? (table : library.Table) :
    ∃ matrix table', CostMatrix.ofTable? library table = some matrix ∧
      matrix.toTable? library = some table' ∧ library.shape table' = library.shape table ∧
      ∀ row < (library.shape table).1, ∀ col < (library.shape table).2,
        library.get? table' row col = library.get? table row col := by
  obtain ⟨matrix, hmatrix, hshaped, hholds⟩ := documented.exists_ofTable? table
  obtain ⟨table', htable', hholds'⟩ := documented.exists_toTable? hshaped
  refine ⟨matrix, table', hmatrix, htable', hholds'.shape_eq.trans hholds.shape_eq.symm, ?_⟩
  intro row hrow col hcol
  rw [hholds.shape_eq] at hrow hcol
  rw [hholds'.get?_eq row hrow col hcol, hholds.get?_eq row hrow col hcol]

end IsDocumented

/-! ### Tables stored column after column -/

theorem get?_byColumns {rows cols row col : Nat} (table : ColumnMajor α rows cols)
    (hrow : row < rows) (hcol : col < cols) : (byColumns α).get? ⟨rows, cols, table⟩ row col =
      some (table.get ⟨row, hrow⟩ ⟨col, hcol⟩) :=
  dif_pos ⟨hrow, hcol⟩

theorem isDocumented_byColumns (α : Type) : (byColumns α).IsDocumented where
  exists_fromRowSlice? rows cols entries hlength := by
    let matrix : CostMatrix α := { data := entries.toArray, rows, cols }
    have hshaped : matrix.WellShaped := hlength
    refine ⟨_, dif_pos hshaped, rfl, fun row hrow col hcol => ?_⟩
    rw [get?_byColumns _ hrow hcol, ← CostMatrix.get?_eq_get_toColumnMajor hshaped hrow hcol]
    exact List.getElem?_toArray ..
  isSome_get? table row hrow col hcol := by
    obtain ⟨rows, cols, table⟩ := table
    rw [get?_byColumns table hrow hcol]
    rfl
  shape_transpose table := rfl
  get?_transpose table row hrow col hcol := by
    obtain ⟨rows, cols, table⟩ := table
    rw [get?_byColumns table hrow hcol, ← table.get_transpose]
    exact get?_byColumns table.transpose hcol hrow

theorem toTable?_byColumns (hshaped : matrix.WellShaped) :
    matrix.toTable? (byColumns α) = some ⟨_, _, matrix.toColumnMajor hshaped⟩ :=
  dif_pos hshaped

theorem ofTable?_byColumns {rows cols : Nat} (table : ColumnMajor α rows cols) :
    CostMatrix.ofTable? (byColumns α) ⟨rows, cols, table⟩ = some table.toMatrix := by
  refine (isDocumented_byColumns α).ofTable?_eq_some (CostMatrix.wellShaped_toMatrix table)
    ⟨rfl, fun row hrow col hcol => ?_⟩
  rw [get?_byColumns table hrow hcol, CostMatrix.get?_toMatrix table hrow hcol]

end TableLibrary

namespace CostMatrix

theorem toMatrix_toColumnMajor (hshaped : matrix.WellShaped) :
    (matrix.toColumnMajor hshaped).toMatrix = matrix := by
  have hback := (TableLibrary.isDocumented_byColumns α).viaTable?_eq_some hshaped
  rw [viaTable?, TableLibrary.toTable?_byColumns hshaped] at hback
  exact Option.some.inj ((TableLibrary.ofTable?_byColumns _).symm.trans hback)

theorem viaTranspose?_byColumns (hshaped : matrix.WellShaped) :
    matrix.viaTranspose? (.byColumns α) =
      some (matrix.toColumnMajor hshaped).transpose.toMatrix := by
  rw [viaTranspose?, TableLibrary.toTable?_byColumns hshaped]
  exact TableLibrary.ofTable?_byColumns _

/-! ### All views -/

variable {place : Nat × Nat} {change : α → α}

/-- Whichever way a matrix is looked at, the cell at a place has the cost that is read there. -/
structure IsCoherent (library : TableLibrary α) (matrix : CostMatrix α) : Prop where
  get? : ∀ row < matrix.rows, ∀ col < matrix.cols, ∃ cost, matrix.get? row col = some cost
  cells : ∃ cells, matrix.cells? = some cells ∧
    cells.map Cell.place = List.range matrix.rows ×ˢ List.range matrix.cols ∧
    ∀ cell ∈ cells, matrix.get? cell.row cell.col = some cell.cost
  rows : ∀ row < matrix.rows, ∃ entries, matrix.row? row = some entries ∧
    entries.length = matrix.cols ∧ ∀ col < matrix.cols, entries[col]? = matrix.get? row col
  table : ∃ table, matrix.toTable? library = some table ∧ library.Holds table matrix
  viaTable? : matrix.viaTable? library = some matrix
  viaTranspose? : ∃ flipped, matrix.viaTranspose? library = some flipped ∧
    flipped.Flips matrix ∧ flipped.viaTranspose? library = some matrix

theorem isCoherent_of_wellShaped (documented : library.IsDocumented)
    (hshaped : matrix.WellShaped) : matrix.IsCoherent library where
  get? _ hrow _ hcol := exists_get?_eq_some hshaped hrow hcol
  cells := exists_cells? hshaped
  rows _ hrow := exists_row? hshaped hrow
  table := documented.exists_toTable? hshaped
  viaTable? := documented.viaTable?_eq_some hshaped
  viaTranspose? := by
    obtain ⟨flipped, hflipped, hshaped', hflips⟩ := documented.exists_viaTranspose? hshaped
    obtain ⟨again, hagain, hshaped'', hflips'⟩ := documented.exists_viaTranspose? hshaped'
    obtain rfl := hflips'.eq hshaped hshaped'' hflips
    exact ⟨flipped, hflipped, hflips, hagain⟩

def ChangesTable (library : TableLibrary α) (place : Nat × Nat) (change : α → α)
    (before after : CostMatrix α) : Prop :=
  ∃ table table', before.toTable? library = some table ∧ after.toTable? library = some table' ∧
    library.shape table' = library.shape table ∧
    ChangesAt before.rows before.cols place change (library.get? table) (library.get? table')

theorem ChangesCell.changesTable (documented : library.IsDocumented)
    (hshaped : matrix.WellShaped) (hshaped' : matrix'.WellShaped)
    (hchanges : ChangesCell place change matrix matrix') :
    ChangesTable library place change matrix matrix' := by
  obtain ⟨table, htable, hholds⟩ := documented.exists_toTable? hshaped
  obtain ⟨table', htable', hholds'⟩ := documented.exists_toTable? hshaped'
  refine ⟨table, table', htable, htable', ?_, fun row hrow col hcol => ?_⟩
  · rw [hholds'.shape_eq, hholds.shape_eq, hchanges.rows_eq, hchanges.cols_eq]
  · rw [hholds'.get?_eq row (hrow.trans_eq hchanges.rows_eq.symm) col
      (hcol.trans_eq hchanges.cols_eq.symm), hholds.get?_eq row hrow col hcol]
    exact hchanges.get? row hrow col hcol

/-- **Coherent views.** After any writes inside its shape a matrix is coherent, and so it is after
any further change to one cell, which shows at the place of that cell and nowhere else. To set a cell
is the change that forgets what it cost. -/
theorem isCoherent_setAll? (documented : library.IsDocumented) (hshaped : matrix.WellShaped)
    {writes : List (Cell α)}
    (hinside : ∀ cell ∈ writes, cell.row < matrix.rows ∧ cell.col < matrix.cols) :
    ∃ written, matrix.setAll? writes = some written ∧ Overwrites writes matrix written ∧
      written.IsCoherent library ∧
      ∀ row < matrix.rows, ∀ col < matrix.cols, ∀ change,
        ∃ changed, written.modify? row col change = some changed ∧ changed.IsCoherent library ∧
          ChangesCell (row, col) change written changed ∧
          ChangesTable library (row, col) change written changed := by
  obtain ⟨written, hwritten, hshaped', hover⟩ := exists_setAll? hshaped hinside
  refine ⟨written, hwritten, hover, isCoherent_of_wellShaped documented hshaped',
    fun row hrow col hcol change => ?_⟩
  obtain ⟨changed, hmodify, hshaped'', hchanges⟩ := exists_modify? hshaped'
    (hrow.trans_eq hover.rows_eq.symm) (hcol.trans_eq hover.cols_eq.symm) change
  exact ⟨changed, hmodify, isCoherent_of_wellShaped documented hshaped'', hchanges,
    hchanges.changesTable documented hshaped' hshaped''⟩

def wide : CostMatrix Nat :=
  { data := #[1, 2, 3, 4, 5, 6], rows := 2, cols := 3 }

def wideWrites : List (Cell Nat) :=
  [{ row := 1, col := 0, cost := 9 }, { row := 0, col := 2, cost := 8 },
    { row := 1, col := 0, cost := 7 }]

/-- One cell is written twice, and then one of the others is changed. -/
theorem isCoherent_setAll?_wide :
    wide.WellShaped ∧ (∀ cell ∈ wideWrites, cell.row < wide.rows ∧ cell.col < wide.cols) ∧
    ∃ written changed, wide.setAll? wideWrites = some written ∧
      written.data = #[1, 2, 8, 7, 5, 6] ∧ written.IsCoherent (.byColumns Nat) ∧
      written.viaTranspose? (.byColumns Nat) =
        some { data := #[1, 7, 2, 5, 8, 6], rows := 3, cols := 2 } ∧
      written.modify? 0 1 (· + 1) = some changed ∧
      ChangesCell (0, 1) (· + 1) written changed ∧
      ChangesTable (.byColumns Nat) (0, 1) (· + 1) written changed := by
  have hshaped : wide.WellShaped := rfl
  have hinside : ∀ cell ∈ wideWrites, cell.row < wide.rows ∧ cell.col < wide.cols := by decide
  obtain ⟨written, hwritten, -, hcoherent, hchange⟩ :=
    isCoherent_setAll? (TableLibrary.isDocumented_byColumns Nat) hshaped hinside
  obtain ⟨changed, hchanged, -, hcell, htable⟩ := hchange 0 (by decide) 1 (by decide) (· + 1)
  refine ⟨hshaped, hinside, written, changed, hwritten, ?_, hcoherent, ?_, hchanged, hcell, htable⟩
  · obtain rfl := Option.some.inj hwritten
    rfl
  · obtain rfl := Option.some.inj hwritten
    decide

end CostMatrix

end Hungarian
