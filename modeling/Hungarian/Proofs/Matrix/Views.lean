import Mathlib.Data.List.Induction
import Hungarian.Proofs.Flat.Access
import Hungarian.Proofs.Matrix.Faults

/-!
# A matrix seen cell by cell and row by row

A matrix with as many stored cells as its shape has places is known from what is read at these
places. Its rows and the list of its cells hold just that, each cell at its place, and a write
changes one cell.
-/

namespace Hungarian

namespace Cell

variable {α : Type}

def place (cell : Cell α) : Nat × Nat :=
  (cell.row, cell.col)

def changeAt (place : Nat × Nat) (change : α → α) (cell : Cell α) : Cell α :=
  if cell.place = place then { cell with cost := change cell.cost } else cell

variable (place : Nat × Nat) (change : α → α) (cell : Cell α)

@[simp]
theorem row_changeAt : (cell.changeAt place change).row = cell.row := by
  unfold changeAt
  split <;> rfl

@[simp]
theorem col_changeAt : (cell.changeAt place change).col = cell.col := by
  unfold changeAt
  split <;> rfl

theorem cost_changeAt : (cell.changeAt place change).cost =
    if cell.place = place then change cell.cost else cell.cost := by
  unfold changeAt
  split <;> rfl

theorem place_changeAt : (cell.changeAt place change).place = cell.place := by
  simp [Cell.place]

end Cell

namespace CostMatrix

variable {α : Type} {matrix matrix' : CostMatrix α} {row col : Nat}

/-! ### Places -/

theorem getElem?_places {rows cols : Nat} (hrow : row < rows) (hcol : col < cols) :
    (List.range rows ×ˢ List.range cols)[row * cols + col]? = some (row, col) := by
  have hwide : col < (List.range cols).length := hcol.trans_eq List.length_range.symm
  have hplace : (List.range rows ×ˢ List.range cols)[row * (List.range cols).length + col]? = _ :=
    getElem?_product hwide
  rw [List.length_range] at hplace
  rw [hplace, List.getElem?_range hrow, List.getElem_range]
  rfl

theorem mem_places {rows cols : Nat} {place : Nat × Nat} :
    place ∈ List.range rows ×ˢ List.range cols ↔ place.1 < rows ∧ place.2 < cols := by
  rw [← Prod.mk.eta (p := place), List.mem_product, List.mem_range, List.mem_range]

/-- The places of a shape, row after row, are told by the offsets in ascending order. -/
theorem places_eq_map (rows cols : Nat) : List.range rows ×ˢ List.range cols =
    (List.range (rows * cols)).map fun index => (index / cols, index % cols) := by
  refine List.ext_getElem? fun index => ?_
  by_cases hindex : index < rows * cols
  · obtain ⟨row, col, rfl⟩ := exists_place hindex
    rw [getElem?_places row.isLt col.isLt, List.getElem?_map, List.getElem?_range hindex,
      Option.map_some, Square.index_div col.isLt, Square.index_mod col.isLt]
  · rw [List.getElem?_eq_none, List.getElem?_eq_none]
    · simpa using hindex
    · simpa [List.length_product] using hindex

/-! ### Cells -/

/-- What is read at the places of its shape tells a matrix. -/
theorem eq_of_get?_eq (hshaped : matrix.WellShaped) (hshaped' : matrix'.WellShaped)
    (hrows : matrix'.rows = matrix.rows) (hcols : matrix'.cols = matrix.cols)
    (hget : ∀ row < matrix.rows, ∀ col < matrix.cols, matrix'.get? row col = matrix.get? row col) :
    matrix' = matrix := by
  obtain ⟨data, rows, cols⟩ := matrix
  obtain ⟨data', rows', cols'⟩ := matrix'
  obtain rfl : rows' = rows := hrows
  obtain rfl : cols' = cols := hcols
  have hdata : data' = data := by
    refine Array.ext_getElem? fun index => ?_
    by_cases hindex : index < rows' * cols'
    · obtain ⟨row, col, rfl⟩ := exists_place hindex
      exact hget row row.isLt col col.isLt
    · have hsize : data.size = rows' * cols' := hshaped
      have hsize' : data'.size = rows' * cols' := hshaped'
      rw [Array.getElem?_eq_none (by omega), Array.getElem?_eq_none (by omega)]
  rw [hdata]

theorem cell_eq_of_place_eq {cell other : Cell α} (hplace : cell.place = other.place)
    (hcell : matrix.get? cell.row cell.col = some cell.cost)
    (hother : matrix.get? other.row other.col = some other.cost) : cell = other := by
  obtain ⟨row, col, cost⟩ := cell
  obtain ⟨row', col', cost'⟩ := other
  obtain ⟨rfl, rfl⟩ := Prod.mk.inj hplace
  obtain rfl := Option.some.inj (hcell.symm.trans hother)
  rfl

/-- Cells at the same places with the costs that a matrix has there are the same cells. -/
theorem eq_of_map_place_eq {cells others : List (Cell α)}
    (hplaces : cells.map Cell.place = others.map Cell.place)
    (hcells : ∀ cell ∈ cells, matrix.get? cell.row cell.col = some cell.cost)
    (hothers : ∀ cell ∈ others, matrix.get? cell.row cell.col = some cell.cost) :
    cells = others := by
  induction cells generalizing others with
  | nil => exact (List.map_eq_nil_iff.mp hplaces.symm).symm
  | cons cell rest ih =>
      cases others with
      | nil => cases hplaces
      | cons other rest' =>
          obtain ⟨hcell, hrest⟩ := List.forall_mem_cons.mp hcells
          obtain ⟨hother, hrest'⟩ := List.forall_mem_cons.mp hothers
          obtain ⟨hplace, hbehind⟩ := List.cons.inj hplaces
          rw [cell_eq_of_place_eq hplace hcell hother, ih hbehind hrest hrest']

/-- The list of all cells: those of the shape, row after row, each with its cost. -/
theorem exists_cells? (hshaped : matrix.WellShaped) : ∃ cells, matrix.cells? = some cells ∧
    cells.map Cell.place = List.range matrix.rows ×ˢ List.range matrix.cols ∧
    ∀ cell ∈ cells, matrix.get? cell.row cell.col = some cell.cost := by
  have hsize : matrix.data.toList.length = matrix.rows * matrix.cols := hshaped
  have hstored : ¬(matrix.cols = 0 ∧ matrix.data.size ≠ 0) := fun ⟨hcols, hsome⟩ =>
    hsome (by rw [hshaped, hcols, Nat.mul_zero])
  refine ⟨_, if_neg hstored, ?_, fun cell hcell => ?_⟩
  · have hindices : matrix.data.toList.zipIdx.map Prod.snd =
        List.range (matrix.rows * matrix.cols) := by
      rw [List.zipIdx_map_snd, hsize, List.range_eq_range']
    rw [places_eq_map, ← hindices, List.map_map, List.map_map]
    rfl
  · obtain ⟨⟨cost, index⟩, hentry, rfl⟩ := List.mem_map.mp hcell
    rw [List.mem_zipIdx_iff_getElem?, Array.getElem?_toList] at hentry
    rw [get?, offset, Nat.div_add_mod']
    exact hentry

/-- All places in order, each with the cost that is read there. -/
theorem cells?_eq_some_iff (hshaped : matrix.WellShaped) {cells : List (Cell α)} :
    matrix.cells? = some cells ↔
      cells.map Cell.place = List.range matrix.rows ×ˢ List.range matrix.cols ∧
      ∀ cell ∈ cells, matrix.get? cell.row cell.col = some cell.cost := by
  obtain ⟨stored, hstored, hplaces, hcosts⟩ := exists_cells? hshaped
  rw [hstored, Option.some.injEq]
  constructor
  · rintro rfl
    exact ⟨hplaces, hcosts⟩
  · rintro ⟨hplaces', hcosts'⟩
    exact eq_of_map_place_eq (hplaces.trans hplaces'.symm) hcosts hcosts'

/-! ### Rows -/

/-- A row holds what is read at its places. -/
theorem exists_row? (hshaped : matrix.WellShaped) (hrow : row < matrix.rows) :
    ∃ entries, matrix.row? row = some entries ∧ entries.length = matrix.cols ∧
      ∀ col < matrix.cols, entries[col]? = matrix.get? row col := by
  have hend : matrix.offset row matrix.cols ≤ matrix.data.size := by
    rw [hshaped, offset, ← Nat.succ_mul]
    exact Nat.mul_le_mul_right _ hrow
  refine ⟨_, if_pos hend, ?_, fun col hcol => ?_⟩
  · rw [List.length_take, List.length_drop, Nat.min_eq_left]
    exact Nat.le_sub_of_add_le' hend
  · rw [List.getElem?_take_of_lt hcol, List.getElem?_drop, Array.getElem?_toList]
    rfl

/-- A row is as long as the matrix is wide, with the costs that are read there. -/
theorem row?_eq_some_iff (hshaped : matrix.WellShaped) (hrow : row < matrix.rows)
    {entries : List α} : matrix.row? row = some entries ↔
      entries.length = matrix.cols ∧
      ∀ col < matrix.cols, entries[col]? = matrix.get? row col := by
  obtain ⟨stored, hstored, hlength, hentries⟩ := exists_row? hshaped hrow
  rw [hstored, Option.some.injEq]
  constructor
  · rintro rfl
    exact ⟨hlength, hentries⟩
  · rintro ⟨hlength', hentries'⟩
    refine List.ext_getElem? fun col => ?_
    by_cases hcol : col < matrix.cols
    · rw [hentries col hcol, hentries' col hcol]
    · rw [List.getElem?_eq_none (by omega), List.getElem?_eq_none (by omega)]

/-! ### One write -/

def ChangesAt (rows cols : Nat) (place : Nat × Nat) (change : α → α)
    (before after : Nat → Nat → Option α) : Prop :=
  ∀ row < rows, ∀ col < cols, after row col =
    if (row, col) = place then (before row col).map change else before row col

/-- One cell is changed, and no other one in the rows or in the list of all cells. -/
structure ChangesCell (place : Nat × Nat) (change : α → α) (before after : CostMatrix α) :
    Prop where
  rows_eq : after.rows = before.rows
  cols_eq : after.cols = before.cols
  get? : ChangesAt before.rows before.cols place change before.get? after.get?
  row? : ∀ row < before.rows, after.row? row = (before.row? row).map fun entries =>
    if row = place.1 then entries.modify place.2 change else entries
  cells? : after.cells? = before.cells?.map (List.map (Cell.changeAt place change))

variable {place : Nat × Nat} {change : α → α}

theorem changesAt_of_modify? (hcol : col < matrix.cols)
    (h : matrix.modify? row col change = some matrix') :
    ChangesAt matrix.rows matrix.cols (row, col) change matrix.get? matrix'.get? := by
  unfold modify? at h
  split at h
  · next hinside =>
      cases h
      intro other _ beside hbeside
      change (matrix.data.set (matrix.offset row col) _ hinside)[matrix.offset other beside]? = _
      rw [Array.getElem?_set]
      by_cases hplace : (other, beside) = (row, col)
      · obtain ⟨rfl, rfl⟩ := Prod.mk.inj hplace
        rw [if_pos rfl, if_pos rfl, get?, Array.getElem?_eq_getElem hinside, Option.map_some]
      · have hoffset : matrix.offset row col ≠ matrix.offset other beside := by
          intro heq
          obtain ⟨hrow, hcol⟩ := Square.index_inj hcol hbeside heq
          exact hplace (Prod.ext hrow.symm hcol.symm)
        rw [if_neg hoffset, if_neg hplace, get?]
  · cases h

/-- A change at a place is seen in one row. -/
theorem row?_of_changesAt (hshaped : matrix.WellShaped) (hshaped' : matrix'.WellShaped)
    (hrows : matrix'.rows = matrix.rows) (hcols : matrix'.cols = matrix.cols)
    (hget : ChangesAt matrix.rows matrix.cols place change matrix.get? matrix'.get?)
    (hrow : row < matrix.rows) : matrix'.row? row = (matrix.row? row).map fun entries =>
      if row = place.1 then entries.modify place.2 change else entries := by
  obtain ⟨entries, hentries, hlength, hcosts⟩ := exists_row? hshaped hrow
  rw [hentries, Option.map_some, row?_eq_some_iff hshaped' (hrow.trans_eq hrows.symm), hcols]
  constructor
  · split
    · rw [List.length_modify, hlength]
    · exact hlength
  · intro col hcol
    rw [hget row hrow col hcol, ← hcosts col hcol]
    by_cases hat : row = place.1
    · rw [if_pos hat, List.getElem?_modify]
      by_cases hbeside : place.2 = col
      · rw [if_pos (Prod.ext hat hbeside.symm)]
        simp [hbeside]
      · rw [if_neg fun heq => hbeside (congrArg Prod.snd heq).symm]
        simp [hbeside]
    · rw [if_neg hat, if_neg fun heq => hat (congrArg Prod.fst heq)]

theorem cells?_of_changesAt (hshaped : matrix.WellShaped) (hshaped' : matrix'.WellShaped)
    (hrows : matrix'.rows = matrix.rows) (hcols : matrix'.cols = matrix.cols)
    (hget : ChangesAt matrix.rows matrix.cols place change matrix.get? matrix'.get?) :
    matrix'.cells? = matrix.cells?.map (List.map (Cell.changeAt place change)) := by
  obtain ⟨cells, hcells, hplaces, hcosts⟩ := exists_cells? hshaped
  rw [hcells, Option.map_some, cells?_eq_some_iff hshaped', hrows, hcols, ← hplaces, List.map_map]
  refine ⟨List.map_congr_left fun cell _ => cell.place_changeAt place change, fun cell hcell => ?_⟩
  obtain ⟨cell, hmem, rfl⟩ := List.mem_map.mp hcell
  obtain ⟨hrow, hcol⟩ := mem_places.mp (hplaces ▸ List.mem_map_of_mem hmem)
  rw [Cell.row_changeAt, Cell.col_changeAt, Cell.cost_changeAt, hget cell.row hrow cell.col hcol,
    hcosts cell hmem]
  by_cases hat : cell.place = place
  · rw [if_pos hat]
    exact if_pos hat
  · rw [if_neg hat]
    exact if_neg hat

/-- A write inside the shape goes through, and whichever way the matrix is looked at, it changes the
cell at its place and no other one. -/
theorem exists_modify? (hshaped : matrix.WellShaped) (hrow : row < matrix.rows)
    (hcol : col < matrix.cols) (change : α → α) :
    ∃ matrix', matrix.modify? row col change = some matrix' ∧ matrix'.WellShaped ∧
      ChangesCell (row, col) change matrix matrix' := by
  have hmodify : matrix.modify? row col change = _ := dif_pos (offset_lt_size hshaped hrow hcol)
  have hshaped' := wellShaped_of_modify? hmodify hshaped
  have hget := changesAt_of_modify? hcol hmodify
  exact ⟨_, hmodify, hshaped', rfl, rfl, hget,
    fun _ hrow => row?_of_changesAt hshaped hshaped' rfl rfl hget hrow,
    cells?_of_changesAt hshaped hshaped' rfl rfl hget⟩

theorem exists_set? (hshaped : matrix.WellShaped) {cell : Cell α} (hrow : cell.row < matrix.rows)
    (hcol : cell.col < matrix.cols) :
    ∃ matrix', matrix.set? cell.row cell.col cell.cost = some matrix' ∧ matrix'.WellShaped ∧
      ChangesCell cell.place (fun _ => cell.cost) matrix matrix' :=
  exists_modify? hshaped hrow hcol fun _ => cell.cost

/-! ### Any number of writes -/

def setAll? (matrix : CostMatrix α) (writes : List (Cell α)) : Option (CostMatrix α) :=
  writes.foldlM (fun written cell => written.set? cell.row cell.col cell.cost) matrix

structure Overwrites (writes : List (Cell α)) (before after : CostMatrix α) : Prop where
  rows_eq : after.rows = before.rows
  cols_eq : after.cols = before.cols
  get?_eq : ∀ row < before.rows, ∀ col < before.cols, after.get? row col =
    ((writes.reverse.find? fun cell => cell.place == (row, col)).map Cell.cost).or
      (before.get? row col)

theorem exists_setAll? (hshaped : matrix.WellShaped) {writes : List (Cell α)}
    (hinside : ∀ cell ∈ writes, cell.row < matrix.rows ∧ cell.col < matrix.cols) :
    ∃ written, matrix.setAll? writes = some written ∧ written.WellShaped ∧
      Overwrites writes matrix written := by
  induction writes using List.reverseRecOn with
  | nil => exact ⟨matrix, rfl, hshaped, rfl, rfl, fun _ _ _ _ => rfl⟩
  | append_singleton rest cell ih =>
      obtain ⟨hrest, hcell⟩ := List.forall_mem_append.mp hinside
      obtain ⟨hrow, hcol⟩ := hcell cell List.mem_cons_self
      obtain ⟨written, hwritten, hshaped', hover⟩ := ih hrest
      obtain ⟨written', hset, hshaped'', hchanges⟩ := exists_set? hshaped'
        (hrow.trans_eq hover.rows_eq.symm) (hcol.trans_eq hover.cols_eq.symm)
      refine ⟨written', ?_, hshaped'', hchanges.rows_eq.trans hover.rows_eq,
        hchanges.cols_eq.trans hover.cols_eq, fun row hrow col hcol => ?_⟩
      · rw [setAll?, List.foldlM_append, ← setAll?, hwritten]
        exact (bind_pure _).trans hset
      · have hrow' := hrow.trans_eq hover.rows_eq.symm
        have hcol' := hcol.trans_eq hover.cols_eq.symm
        rw [hchanges.get? row hrow' col hcol', List.reverse_append, List.reverse_singleton,
          List.singleton_append, List.find?_cons]
        by_cases hplace : cell.place = (row, col)
        · obtain ⟨cost, hcost⟩ := exists_get?_eq_some hshaped' hrow' hcol'
          rw [if_pos hplace.symm, hcost, hplace, beq_self_eq_true]
          rfl
        · rw [if_neg fun heq => hplace heq.symm, beq_false_of_ne hplace]
          exact hover.get?_eq row hrow col hcol

end CostMatrix

end Hungarian
