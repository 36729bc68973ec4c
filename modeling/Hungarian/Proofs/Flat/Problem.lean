import Hungarian.Arithmetic.Double
import Hungarian.Proofs.Assignment.Extract
import Hungarian.Proofs.Flat.Access
import Hungarian.Proofs.Problem.Normalize

/-!
# Problems in flat arrays

Normalization writes the cells of a matrix and the forbidden pairs into flat squares. It faults where
memory has no room for the square. The indices that it computes for the cells stay inside otherwise,
unless the matrix stores more cells than the square has places for, which is another fault.
-/

namespace Hungarian

open Flat

structure FlatProblem (α : Type) where
  size : Nat
  rows : Nat
  cols : Nat
  /-- The costs, row after row. -/
  costs : Array α
  forbidden : Array Bool
  sentinel : α
  epsilon : α

variable {α β : Type} {size : Nat}

def Problem.flat (problem : Problem α size) : FlatProblem α where
  size
  rows := problem.rows
  cols := problem.cols
  costs := problem.costs.flat
  forbidden := problem.forbidden.flat
  sentinel := problem.sentinel
  epsilon := problem.epsilon

@[simp]
theorem Problem.size_flat (problem : Problem α size) : problem.flat.size = size := rfl

@[simp]
theorem Problem.rows_flat (problem : Problem α size) : problem.flat.rows = problem.rows := rfl

@[simp]
theorem Problem.cols_flat (problem : Problem α size) : problem.flat.cols = problem.cols := rfl

@[simp]
theorem Problem.epsilon_flat (problem : Problem α size) : problem.flat.epsilon = problem.epsilon :=
  rfl

namespace FlatProblem

open CostArithmetic

-- Rows are read from the first one on, so that a square which is too short is left before an index
-- could wrap.

def costAt (problem : FlatProblem α) (row col : Nat) : Checked α α :=
  read problem.costs (row * problem.size + col)

def isForbiddenAt (problem : FlatProblem α) (row col : Nat) : Checked α Bool :=
  read problem.forbidden (row * problem.size + col)

def rowAt (problem : FlatProblem α) (row : Nat) : Checked α (List α) :=
  slice problem.costs (row * problem.size) problem.size

def isPadding (problem : FlatProblem α) (row col : Nat) : Bool :=
  problem.rows ≤ row || problem.cols ≤ col

@[simp]
theorem costAt_flat (problem : Problem α size) (row col : Fin size) :
    problem.flat.costAt row col = pure (problem.cost row col) :=
  Square.read_flat problem.costs row col

@[simp]
theorem isForbiddenAt_flat (problem : Problem α size) (row col : Fin size) :
    problem.flat.isForbiddenAt row col = pure (problem.isForbidden row col) :=
  Square.read_flat problem.forbidden row col

@[simp]
theorem rowAt_flat (problem : Problem α size) (row : Fin size) :
    problem.flat.rowAt row = pure (problem.costs.row row).toList :=
  Square.slice_flat problem.costs row

/-! ### Normalization -/

def place (size row col : Nat) : Nat :=
  wrapped (row * size + col)

/-- A square with one entry in all places. Marks take less room than costs, which they come after. -/
def uniform (size : Nat) (entry : β) : Checked α (Array β) := do
  let count := wrapped (size * size)
  reserve count
  return Array.replicate count entry

def padded (matrix : CostMatrix α) (padValue : α) : Checked α (Array α) := do
  let square ← uniform matrix.side padValue
  match matrix.cells? with
  | none => .error (.faulted .divisionByZero)
  | some cells =>
    writeAll square (cells.map fun cell => (place matrix.side cell.row cell.col, cell.cost))

def mask (pairs : ForbiddenPairs) (size : Nat) : Checked α (Array Bool) := do
  let square ← uniform size false
  writeAll square (pairs.toList.map fun pair => (place size pair.1 pair.2, true))

def freeCosts (costs : Array α) (forbidden : Array Bool) : List α :=
  (costs.toList.zip forbidden.toList).filterMap fun (cost, isForbidden) =>
    if isForbidden then none else some cost

variable [CostArithmetic α]

def complement (costs : Array α) : Array α :=
  let top := (greatest? costs.toList).getD 0
  costs.map fun cost => top - cost

def ofArrays (size rows cols : Nat) (costs : Array α) (forbidden : Array Bool) (epsilon : α) :
    Except (SolveError α) (FlatProblem α) :=
  let sentinel := Problem.sentinelOver size (freeCosts costs forbidden)
  if isFinite sentinel then
    .ok {
      size
      rows
      cols
      costs := Array.zipWith (fun cost isForbidden => if isForbidden then sentinel else cost)
        costs forbidden
      forbidden
      sentinel
      epsilon }
  else
    .error .costOverflow

def normalize (matrix : CostMatrix α) (options : Options α) : Checked α (FlatProblem α) := do
  Problem.check matrix options
  let padded ← padded matrix options.padValue
  let costs := if options.maximize then complement padded else padded
  let forbidden ← mask options.disallowed matrix.side
  (ofArrays matrix.side matrix.rows matrix.cols costs forbidden options.tolerance).mapError .refused

section Writes

omit [CostArithmetic α]

variable {matrix : CostMatrix α} {padValue : α}

/-- A square with a side below the limit is stored in full. -/
theorem uniform_of_lt (hsize : size < sideLimit) (entry : β) :
    (uniform size entry : Checked α (Array β)) = pure (Array.replicate (size * size) entry) := by
  have hcells := mul_self_lt_cellLimit hsize
  rw [uniform, wrapped_of_lt (hcells.trans (by decide)), reserve_of_lt hcells]
  rfl

/-- From the limit on, the room for a square is refused before any cell is written. -/
theorem uniform_of_oversized (hproduct : size * size < indexLimit) (hsize : sideLimit ≤ size)
    (entry : β) : (uniform size entry : Checked α (Array β)) = .error (.faulted .oversized) := by
  rw [uniform, wrapped_of_lt hproduct, reserve_of_le (cellLimit_le_mul_self hsize)]
  rfl

/-- Below the limit the index of a cell is not wrapped. -/
theorem place_of_lt (hsize : size < sideLimit) {row col : Nat} (hrow : row < size)
    (hcol : col < size) : place size row col = row * size + col :=
  wrapped_of_lt ((Square.index_lt hrow hcol).trans
    ((mul_self_lt_cellLimit hsize).trans (by decide)))

def copies (matrix : CostMatrix α) : List (Nat × α) :=
  matrix.data.toList.zipIdx.map fun (cost, index) =>
    (place matrix.side (index / matrix.cols) (index % matrix.cols), cost)

theorem mem_copies {copied : Nat × α} : copied ∈ copies matrix ↔
    ∃ index, matrix.data[index]? = some copied.2 ∧
      place matrix.side (index / matrix.cols) (index % matrix.cols) = copied.1 := by
  rw [copies, List.mem_map]
  constructor
  · rintro ⟨⟨cost, index⟩, hmem, rfl⟩
    exact ⟨index, by simpa using List.mem_zipIdx_iff_getElem?.mp hmem, rfl⟩
  · rintro ⟨index, hget, hplace⟩
    exact ⟨(copied.2, index), List.mem_zipIdx_iff_getElem?.mpr (by simpa using hget),
      Prod.ext hplace rfl⟩

theorem padded_eq_bind (hcols : 0 < matrix.cols) : padded matrix padValue =
    uniform matrix.side padValue >>= fun square => writeAll square (copies matrix) := by
  rw [padded, CostMatrix.cells?, if_neg (by omega)]
  dsimp only
  rw [List.map_map]
  rfl

section Copies

variable (hcols : 0 < matrix.cols)

include hcols

theorem col_lt_side (index : Nat) : index % matrix.cols < matrix.side :=
  (Nat.mod_lt index hcols).trans_le (Nat.le_max_right _ _)

/-- No two cells of the matrix are copied to one place of the square. -/
theorem copied_inj {index other : Nat}
    (h : index / matrix.cols * matrix.side + index % matrix.cols =
      other / matrix.cols * matrix.side + other % matrix.cols) : index = other := by
  obtain ⟨hrow, hcol⟩ := Square.index_inj (col_lt_side hcols index) (col_lt_side hcols other) h
  rw [← Nat.div_add_mod' index matrix.cols, hrow, hcol, Nat.div_add_mod']

/-- The place that a cell of the square is written from. -/
theorem eq_offset_of_copied {index : Nat} {row col : Fin matrix.side}
    (h : index / matrix.cols * matrix.side + index % matrix.cols = row * matrix.side + col) :
    col < matrix.cols ∧ index = matrix.offset row col := by
  obtain ⟨hrow, hcol⟩ := Square.index_inj (col_lt_side hcols index) col.isLt h
  refine ⟨hcol ▸ Nat.mod_lt index hcols, ?_⟩
  rw [CostMatrix.offset, ← hrow, ← hcol, Nat.div_add_mod']

variable (hside : matrix.side < sideLimit)

include hside

/-- The first cell that the square has no place for. -/
theorem exists_mem_copies_of_surplus (hsurplus : matrix.side * matrix.cols < matrix.data.size) :
    ∃ copied ∈ copies matrix, matrix.side * matrix.side ≤ copied.1 := by
  have hsquare : place matrix.side matrix.side 0 = matrix.side * matrix.side :=
    wrapped_of_lt ((mul_self_lt_cellLimit hside).trans (by decide))
  refine ⟨(matrix.side * matrix.side, matrix.data[matrix.side * matrix.cols]), ?_, le_rfl⟩
  refine mem_copies.mpr ⟨_, Array.getElem?_eq_getElem hsurplus, ?_⟩
  rw [Nat.mul_div_cancel _ hcols, Nat.mul_mod_left, hsquare]

variable (hroom : matrix.data.size ≤ matrix.side * matrix.cols)

include hroom

/-- Where the square has a place for each cell, nothing is lost of the place. -/
theorem mem_copies_of_room {copied : Nat × α} : copied ∈ copies matrix ↔
    ∃ index, matrix.data[index]? = some copied.2 ∧
      index / matrix.cols * matrix.side + index % matrix.cols = copied.1 := by
  rw [mem_copies]
  refine exists_congr fun index => and_congr_right fun hget => ?_
  have hindex : index < matrix.data.size := (Array.getElem?_eq_some_iff.mp hget).1
  have hrow : index / matrix.cols < matrix.side :=
    (Nat.div_lt_iff_lt_mul hcols).mpr (hindex.trans_le hroom)
  rw [place_of_lt hside hrow (col_lt_side hcols index)]

theorem lt_of_mem_copies {copied : Nat × α} (h : copied ∈ copies matrix) :
    copied.1 < matrix.side * matrix.side := by
  obtain ⟨index, hget, hplace⟩ := (mem_copies_of_room hcols hside hroom).mp h
  have hindex : index < matrix.data.size := (Array.getElem?_eq_some_iff.mp hget).1
  rw [← hplace]
  exact Square.index_lt ((Nat.div_lt_iff_lt_mul hcols).mpr (hindex.trans_le hroom))
    (col_lt_side hcols index)

/-- What is copied to a place is the cell of the matrix there, if there is one. -/
theorem find?_copies (row col : Fin matrix.side) :
    ((copies matrix).reverse.find? fun copied =>
      copied.1 == row * matrix.side + col).map Prod.snd =
      if col < matrix.cols then matrix.get? row col else none := by
  ext found
  rw [map_find?_eq_some_iff]
  · simp only [List.mem_reverse, mem_copies_of_room hcols hside hroom]
    constructor
    · rintro ⟨copied, ⟨index, hget, hindex⟩, hplace, rfl⟩
      obtain ⟨hcol, rfl⟩ := eq_offset_of_copied hcols (hindex.trans hplace)
      rw [if_pos hcol]
      exact hget
    · intro hfound
      split at hfound
      · next hcol =>
          refine ⟨(row * matrix.side + col, found), ⟨matrix.offset row col, hfound, ?_⟩, rfl, rfl⟩
          rw [CostMatrix.offset, Square.index_div hcol, Square.index_mod hcol]
      · cases hfound
  · intro first hfirst second hsecond heq
    obtain ⟨index, hget, hindex⟩ :=
      (mem_copies_of_room hcols hside hroom).mp (List.mem_reverse.mp hfirst)
    obtain ⟨other, hother, hindex'⟩ :=
      (mem_copies_of_room hcols hside hroom).mp (List.mem_reverse.mp hsecond)
    rw [copied_inj hcols (hindex.trans (heq.trans hindex'.symm)), hother] at hget
    exact (Option.some.inj hget).symm

end Copies

/-- Copying with two widths makes the padded square. -/
theorem padded_eq (hcols : 0 < matrix.cols) (hside : matrix.side < sideLimit) :
    padded matrix padValue = (matrix.padded padValue).map Square.flat := by
  rw [padded_eq_bind hcols, uniform_of_lt hside, pure_bind, CostMatrix.padded]
  split
  · next hsurplus =>
      obtain ⟨copied, hcopied, hlarge⟩ := exists_mem_copies_of_surplus hcols hside hsurplus
      exact writeAll_eq_outOfRange hcopied (by rwa [Array.size_replicate])
  · next hroom =>
      have hroom := Nat.le_of_not_lt hroom
      refine Square.writeAll_replicate (fun copied => lt_of_mem_copies hcols hside hroom)
        fun row col => ?_
      rw [find?_copies hcols hside hroom, Square.get_ofFn]
      split <;> rfl

/-- A place is marked when its pair is forbidden. -/
theorem find?_marks {pairs : ForbiddenPairs}
    (hinside : ∀ pair ∈ pairs.toList, pair.1 < size ∧ pair.2 < size) (row col : Fin size) :
    ((pairs.toList.map fun pair => (pair.1 * size + pair.2, true)).reverse.find? fun place =>
      place.1 == row * size + col).map Prod.snd =
      if pairs.contains row col then some true else none := by
  split
  · next hforbidden =>
      have hpair := ForbiddenPairs.contains_iff.mp hforbidden
      rw [map_find?_eq_some_iff]
      · refine ⟨(row * size + col, true), List.mem_reverse.mpr ?_, rfl, rfl⟩
        exact List.mem_map.mpr ⟨(row.val, col.val), hpair, rfl⟩
      · intro first hfirst second hsecond _
        obtain ⟨_, -, rfl⟩ := List.mem_map.mp (List.mem_reverse.mp hfirst)
        obtain ⟨_, -, rfl⟩ := List.mem_map.mp (List.mem_reverse.mp hsecond)
        rfl
  · next hfree =>
      rw [List.find?_eq_none.mpr, Option.map_none]
      intro place hplace heq
      obtain ⟨pair, hpair, rfl⟩ := List.mem_map.mp (List.mem_reverse.mp hplace)
      obtain ⟨hrow, hcol⟩ := Square.index_inj (hinside pair hpair).2 col.isLt (beq_iff_eq.mp heq)
      refine hfree (ForbiddenPairs.contains_iff.mpr ?_)
      rw [← hrow, ← hcol]
      exact hpair

/-- Pairs inside the square are marked. -/
theorem mask_eq {pairs : ForbiddenPairs} (hsize : size < sideLimit)
    (hinside : ∀ pair ∈ pairs.toList, pair.1 < size ∧ pair.2 < size) :
    (mask pairs size : Checked α (Array Bool)) = pure (pairs.mask size).flat := by
  have hplaces : (pairs.toList.map fun pair => (place size pair.1 pair.2, true)) =
      pairs.toList.map fun pair => (pair.1 * size + pair.2, true) :=
    List.map_congr_left fun pair hpair =>
      Prod.ext (place_of_lt hsize (hinside pair hpair).1 (hinside pair hpair).2) rfl
  rw [mask, uniform_of_lt hsize, pure_bind, hplaces]
  refine Square.writeAll_replicate ?_ fun row col => ?_
  · intro place hplace
    obtain ⟨pair, hpair, rfl⟩ := List.mem_map.mp hplace
    exact Square.index_lt (hinside pair hpair).1 (hinside pair hpair).2
  · rw [find?_marks hinside, ForbiddenPairs.mask, Square.get_ofFn]
    cases pairs.contains row col <;> rfl

theorem freeCosts_flat (costs : Square α size) (forbidden : Square Bool size) :
    freeCosts costs.flat forbidden.flat = Problem.freeCosts costs forbidden := by
  rw [freeCosts, Square.toList_flat, Square.toList_flat, Square.toList_eq_map_places,
    Square.toList_eq_map_places, List.zip_map', List.filterMap_map]
  rfl

end Writes

theorem complement_flat (costs : Square α size) :
    complement costs.flat = (Problem.complement costs).flat := by
  rw [complement, Square.toList_flat, Problem.complement]
  exact Square.map_flat _ costs

theorem ofArrays_flat (rows cols : Nat) (costs : Square α size) (forbidden : Square Bool size)
    (epsilon : α) : ofArrays size rows cols costs.flat forbidden.flat epsilon =
      (Problem.ofSquare rows cols costs forbidden epsilon).map Problem.flat := by
  rw [ofArrays, freeCosts_flat, Problem.ofSquare]
  split
  · exact congrArg (fun costs => Except.ok (FlatProblem.mk _ _ _ costs _ _ _))
      (Square.zipWith_flat _ costs forbidden)
  · rfl

/-- **Normalization in flat arrays** makes the same problem where there is room for the square, and
fails for the same reasons. -/
theorem normalize_eq {matrix : CostMatrix α} (hside : matrix.side < sideLimit)
    (options : Options α) :
    normalize matrix options = (Problem.normalize matrix options).map Problem.flat := by
  rw [normalize, Problem.normalize]
  cases hcheck : Problem.check matrix options with
  | error failure => rfl
  | ok =>
      obtain ⟨⟨-, hcols⟩, -, hvalidate⟩ := Problem.check_eq_ok_iff.mp hcheck
      have hinside : ∀ pair ∈ options.disallowed.toList,
          pair.1 < matrix.side ∧ pair.2 < matrix.side := by
        intro pair hpair
        obtain ⟨hrow, hcol⟩ := (Options.validate_eq_ok_iff.mp hvalidate).1 pair hpair
        exact ⟨hrow.trans_le (Nat.le_max_left _ _), hcol.trans_le (Nat.le_max_right _ _)⟩
      rw [padded_eq hcols hside]
      cases matrix.padded options.padValue with
      | error failure => rfl
      | ok padded =>
          have hcosts : (if options.maximize then complement padded.flat else padded.flat) =
              (Problem.transformed options padded).flat := by
            rw [Problem.transformed, complement_flat]
            split <;> rfl
          change (mask options.disallowed matrix.side >>= fun forbidden =>
            (ofArrays matrix.side matrix.rows matrix.cols
              (if options.maximize then complement padded.flat else padded.flat) forbidden
              options.tolerance).mapError .refused) =
            ((Problem.ofSquare matrix.rows matrix.cols (Problem.transformed options padded)
              (options.disallowed.mask matrix.side) options.tolerance).mapError .refused).map
              Problem.flat
          rw [mask_eq hside hinside, pure_bind, hcosts, ofArrays_flat]
          cases Problem.ofSquare matrix.rows matrix.cols (Problem.transformed options padded)
            (options.disallowed.mask matrix.side) options.tolerance <;> rfl

/-- The checks come before the square is made, whatever its size. -/
theorem normalize_eq_error_of_check {matrix : CostMatrix α} {options : Options α}
    {failure : Failure α} (hcheck : Problem.check matrix options = .error failure) :
    normalize matrix options = .error failure := by
  rw [normalize, hcheck]
  rfl

/-- Where there is no room, the checks are all that normalization does. -/
theorem normalize_of_oversized {matrix : CostMatrix α}
    (hproduct : matrix.side * matrix.side < indexLimit) (hside : sideLimit ≤ matrix.side)
    (options : Options α) : normalize matrix options =
      (Problem.check matrix options).bind fun _ => .error (.faulted .oversized) := by
  cases hcheck : Problem.check matrix options with
  | error failure => exact normalize_eq_error_of_check hcheck
  | ok =>
      obtain ⟨⟨-, hcols⟩, -⟩ := Problem.check_eq_ok_iff.mp hcheck
      rw [normalize, hcheck, padded_eq_bind hcols, uniform_of_oversized hproduct hside]
      rfl

/-- What is normalized in memory is normalized in flat arrays. -/
theorem normalize_eq_normalizeInMemory {matrix : CostMatrix α}
    (hproduct : matrix.side * matrix.side < indexLimit) (options : Options α) :
    normalize matrix options = (Problem.normalizeInMemory matrix options).map Problem.flat := by
  rcases Nat.lt_or_ge matrix.side sideLimit with hside | hside
  · rw [normalize_eq hside, Problem.normalizeInMemory_of_side_lt matrix options hside]
  · rw [normalize_of_oversized hproduct hside,
      Problem.normalizeInMemory_of_le_side matrix options hside]
    cases Problem.check matrix options <;> rfl

/-! ### Sizes -/

section Sizes

omit [CostArithmetic α]

theorem size_of_uniform {entry : β} {square : Array β}
    (h : (uniform size entry : Checked α (Array β)) = .ok square) : square.size < cellLimit := by
  obtain ⟨_, hroom, hsquare⟩ := exists_of_bind_eq_ok h
  rw [← Except.ok.inj hsquare, Array.size_replicate]
  exact lt_of_reserve hroom

theorem size_of_padded {matrix : CostMatrix α} {padValue : α} {costs : Array α}
    (h : padded matrix padValue = .ok costs) : costs.size < cellLimit := by
  obtain ⟨square, hsquare, hcopied⟩ := exists_of_bind_eq_ok h
  split at hcopied
  · cases hcopied
  · rw [size_of_writeAll hcopied]
    exact size_of_uniform hsquare

end Sizes

theorem size_of_ofArrays {rows cols : Nat} {costs : Array α} {forbidden : Array Bool} {epsilon : α}
    {problem : FlatProblem α} (h : ofArrays size rows cols costs forbidden epsilon = .ok problem) :
    problem.size = size ∧ problem.costs.size ≤ costs.size := by
  unfold ofArrays at h
  dsimp only at h
  split at h
  · cases h
    exact ⟨rfl, Array.size_zipWith.trans_le (Nat.min_le_left _ _)⟩
  · cases h

/-- However its index was wrapped, a square that was stored had room. -/
theorem size_of_normalize {matrix : CostMatrix α} {options : Options α} {problem : FlatProblem α}
    (h : normalize matrix options = .ok problem) :
    problem.size = matrix.side ∧ problem.costs.size < cellLimit := by
  obtain ⟨-, -, hafter⟩ := exists_of_bind_eq_ok h
  obtain ⟨costs, hpadded, hmasked⟩ := exists_of_bind_eq_ok hafter
  obtain ⟨forbidden, -, hsquare⟩ := exists_of_bind_eq_ok hmasked
  obtain ⟨hside, hsize⟩ := size_of_ofArrays (eq_ok_of_mapError hsquare)
  refine ⟨hside, hsize.trans_lt ?_⟩
  split
  · rw [complement, Array.size_map]
    exact size_of_padded hpadded
  · exact size_of_padded hpadded

end FlatProblem

/-! ### A row that is too long -/

noncomputable def widest : CostMatrix Float where
  data := Array.replicate sideLimit 0
  rows := 1
  cols := sideLimit

def widestOptions : Options Float :=
  Options.standard.withPadValue 1e308

theorem isValid_widest : widest.IsValid widestOptions where
  wellShaped := by
    rw [CostMatrix.WellShaped, widest, Array.size_replicate, Nat.one_mul]
  rows_pos := Nat.zero_lt_one
  cols_pos := by decide
  inside := nofun
  data_isFinite := by
    intro cost hcost
    rw [(Array.mem_replicate.mp hcost).2]
    decide +kernel
  padValue_isFinite := by decide +kernel
  tolerance_isFinite := by decide +kernel
  tolerance_nonneg := by decide +kernel

end Hungarian
