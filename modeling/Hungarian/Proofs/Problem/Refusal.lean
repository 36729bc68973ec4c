import Mathlib.Data.Prod.Lex
import Mathlib.Order.WellFounded
import Hungarian.Proofs.Matrix.Views
import Hungarian.Proofs.Problem.Normalize

/-!
# Why a matrix is refused

Of several reasons to refuse a matrix the first one counts: it is empty, a cost is not finite, a
forbidden pair lies outside, then the pad value, the tolerance, and last the sentinel. The cell or
the pair that an error names is the first one by rows and then by columns.
-/

namespace Hungarian

open CostArithmetic

section Sorted

variable {β κ : Type} [LinearOrder κ] {key : β → κ} {entries : List β} {test : β → Bool} {entry : β}

/-- What is found in a sorted list is the least entry that passes. -/
theorem find?_eq_some_iff_of_sorted (hsorted : entries.Pairwise fun a b => key a < key b) :
    entries.find? test = some entry ↔ (entry ∈ entries ∧ test entry = true) ∧
      ∀ other ∈ entries, test other = true → key entry ≤ key other := by
  induction entries with
  | nil => simp
  | cons head tail ih =>
      obtain ⟨hhead, htail⟩ := List.pairwise_cons.mp hsorted
      rw [List.find?_cons]
      cases htest : test head with
      | true =>
          simp only [Option.some.injEq, List.forall_mem_cons, htest, true_imp_iff]
          constructor
          · rintro rfl
            exact ⟨⟨List.mem_cons_self, htest⟩, le_rfl,
              fun other hother _ => (hhead other hother).le⟩
          · rintro ⟨⟨hmem, -⟩, hle, -⟩
            rcases List.mem_cons.mp hmem with rfl | hmem
            · rfl
            · exact absurd hle (hhead entry hmem).not_ge
      | false =>
          have hmem : entry ∈ head :: tail ∧ test entry = true ↔
              entry ∈ tail ∧ test entry = true := by
            rw [List.mem_cons, or_and_right, or_iff_right]
            rintro ⟨rfl, hentry⟩
            exact absurd (htest.symm.trans hentry) Bool.false_ne_true
          rw [ih htail, hmem]
          simp only [List.forall_mem_cons, htest, Bool.false_eq_true, false_imp_iff, true_and]

end Sorted

variable {α : Type} {matrix : CostMatrix α} {options : Options α}

/-! ### Places in order -/

theorem toLex_div_mod_lt {cols index other : Nat} (h : index < other) :
    toLex (index / cols, index % cols) < toLex (other / cols, other % cols) := by
  rw [Prod.Lex.toLex_lt_toLex]
  rcases (Nat.div_le_div_right h.le).lt_or_eq with hrow | hrow
  · exact .inl hrow
  · refine .inr ⟨hrow, ?_⟩
    have hindex := Nat.div_add_mod index cols
    have hother := Nat.div_add_mod other cols
    dsimp only at hrow ⊢
    rw [hrow] at hindex
    omega

namespace CostMatrix

theorem pairwise_places (rows cols : Nat) : (List.range rows ×ˢ List.range cols).Pairwise
    fun place other => toLex place < toLex other := by
  rw [places_eq_map, List.pairwise_map]
  exact List.pairwise_lt_range.imp toLex_div_mod_lt

/-- The stored cells of a matrix are those of its shape, in order. -/
theorem exists_cells?_sorted (hshaped : matrix.WellShaped) :
    ∃ cells, matrix.cells? = some cells ∧
      (cells.Pairwise fun cell other => toLex cell.place < toLex other.place) ∧
      ∀ cell, cell ∈ cells ↔ (cell.row < matrix.rows ∧ cell.col < matrix.cols) ∧
        matrix.get? cell.row cell.col = some cell.cost := by
  obtain ⟨cells, hcells, hplaces, hcosts⟩ := exists_cells? hshaped
  refine ⟨cells, hcells, List.pairwise_map.mp (hplaces ▸ pairwise_places ..), fun cell => ?_⟩
  constructor
  · intro hcell
    exact ⟨mem_places.mp (hplaces ▸ List.mem_map_of_mem hcell), hcosts cell hcell⟩
  · rintro ⟨hinside, hget⟩
    have hplace : cell.place ∈ cells.map Cell.place := hplaces ▸ mem_places.mpr hinside
    obtain ⟨other, hother, hsame⟩ := List.mem_map.mp hplace
    rwa [← cell_eq_of_place_eq hsame (hcosts other hother) hget]

end CostMatrix

theorem ForbiddenPairs.pairwise_toList (pairs : ForbiddenPairs) :
    pairs.toList.Pairwise fun pair other => toLex pair < toLex other := by
  simp only [Prod.Lex.toLex_lt_toLex]
  refine List.pairwise_flatMap.mpr ⟨fun entry _ => ?_, pairs.ascending.imp fun hless => ?_⟩
  · rw [List.pairwise_map]
    exact entry.2.ascending.imp fun hless => .inr ⟨rfl, hless⟩
  · intro pair hpair other hother
    obtain ⟨_, -, rfl⟩ := List.mem_map.mp hpair
    obtain ⟨_, -, rfl⟩ := List.mem_map.mp hother
    exact .inl hless

/-! ### The sentinel -/

namespace CostMatrix

variable [CostArithmetic α]

def gridTop (matrix : CostMatrix α) (padValue : α) : α :=
  (CostArithmetic.greatest? (matrix.grid padValue).toList).getD 0

def countedCost (matrix : CostMatrix α) (options : Options α) (row col : Nat) : α :=
  if options.maximize then
    matrix.gridTop options.padValue - matrix.gridCost options.padValue row col
  else
    matrix.gridCost options.padValue row col

def countedCosts (matrix : CostMatrix α) (options : Options α) : List α :=
  (Square.places matrix.side).filterMap fun (row, col) =>
    if options.disallowed.contains row col then none else some (matrix.countedCost options row col)

def sentinelCost (matrix : CostMatrix α) (options : Options α) : α :=
  Problem.sentinelOver matrix.side (matrix.countedCosts options)

theorem get_transformed_grid (row col : Fin matrix.side) :
    (Problem.transformed options (matrix.grid options.padValue)).get row col =
      matrix.countedCost options row col := by
  rw [Problem.transformed, countedCost]
  split
  · rw [Problem.complement, Square.get_ofFn, grid, Square.get_ofFn, ← grid]
    rfl
  · rw [grid, Square.get_ofFn]

theorem freeCosts_transformed_grid :
    Problem.freeCosts (Problem.transformed options (matrix.grid options.padValue))
      (options.disallowed.mask matrix.side) = matrix.countedCosts options := by
  simp only [Problem.freeCosts, countedCosts, get_transformed_grid, ForbiddenPairs.mask,
    Square.get_ofFn]

theorem mem_countedCosts {cost : α} : cost ∈ matrix.countedCosts options ↔
    ∃ row col : Fin matrix.side, options.disallowed.contains row col = false ∧
      matrix.countedCost options row col = cost := by
  simp only [← freeCosts_transformed_grid, Problem.mem_freeCosts, get_transformed_grid,
    ForbiddenPairs.mask, Square.get_ofFn]

end CostMatrix

/-! ### The reasons -/

structure CostMatrix.IsOutside (matrix : CostMatrix α) (options : Options α) (pair : Nat × Nat) :
    Prop where
  mem : pair ∈ options.disallowed.toList
  outside : matrix.rows ≤ pair.1 ∨ matrix.cols ≤ pair.2

theorem CostMatrix.inside_of_forall (hinside : ∀ pair, ¬matrix.IsOutside options pair) :
    ∀ pair ∈ options.disallowed.toList, pair.1 < matrix.rows ∧ pair.2 < matrix.cols := by
  intro pair hpair
  have hnot : ¬(matrix.rows ≤ pair.1 ∨ matrix.cols ≤ pair.2) := fun houtside =>
    hinside pair ⟨hpair, houtside⟩
  omega

variable [CostArithmetic α]

structure CostMatrix.IsUnsoundAt (matrix : CostMatrix α) (row col : Nat) (cost : α) : Prop where
  row_lt : row < matrix.rows
  col_lt : col < matrix.cols
  get?_eq : matrix.get? row col = some cost
  isFinite_eq : isFinite cost = false

/-- What a matrix and its options are refused for. Each reason counts only where no earlier one
does. -/
inductive Refuses (matrix : CostMatrix α) (options : Options α) : SolveError α → Prop
  | emptyMatrix (hempty : matrix.rows = 0 ∨ matrix.cols = 0) : Refuses matrix options .emptyMatrix
  | nonFiniteCost {row col : Nat} {cost : α} (hsides : 0 < matrix.rows ∧ 0 < matrix.cols)
      (hcell : matrix.IsUnsoundAt row col cost)
      (hfirst : ∀ row' col' cost', matrix.IsUnsoundAt row' col' cost' →
        toLex (row, col) ≤ toLex (row', col')) :
      Refuses matrix options (.nonFiniteCost row col cost)
  | disallowedOutOfRange {row col : Nat} (hsides : 0 < matrix.rows ∧ 0 < matrix.cols)
      (hcosts : ∀ row col cost, ¬matrix.IsUnsoundAt row col cost)
      (hpair : matrix.IsOutside options (row, col))
      (hfirst : ∀ pair, matrix.IsOutside options pair → toLex (row, col) ≤ toLex pair) :
      Refuses matrix options (.disallowedOutOfRange row col matrix.rows matrix.cols)
  | nonFinitePadValue (hsides : 0 < matrix.rows ∧ 0 < matrix.cols)
      (hcosts : ∀ row col cost, ¬matrix.IsUnsoundAt row col cost)
      (hinside : ∀ pair, ¬matrix.IsOutside options pair)
      (hpadValue : isFinite options.padValue = false) :
      Refuses matrix options (.nonFinitePadValue options.padValue)
  | invalidTolerance (hsides : 0 < matrix.rows ∧ 0 < matrix.cols)
      (hcosts : ∀ row col cost, ¬matrix.IsUnsoundAt row col cost)
      (hinside : ∀ pair, ¬matrix.IsOutside options pair)
      (hpadValue : isFinite options.padValue = true)
      (htolerance : isFinite options.tolerance = false ∨ options.tolerance < 0) :
      Refuses matrix options (.invalidTolerance options.tolerance)
  | costOverflow (hsides : 0 < matrix.rows ∧ 0 < matrix.cols)
      (hcosts : ∀ row col cost, ¬matrix.IsUnsoundAt row col cost)
      (hinside : ∀ pair, ¬matrix.IsOutside options pair)
      (hpadValue : isFinite options.padValue = true)
      (htolerance : isFinite options.tolerance = true ∧ ¬options.tolerance < 0)
      (hsentinel : isFinite (matrix.sentinelCost options) = false) :
      Refuses matrix options .costOverflow

namespace CostMatrix

variable {row col : Nat} {cost : α}

/-- All stored costs are finite when those of the cells are. -/
theorem data_isFinite_of_forall (hshaped : matrix.WellShaped) (hcols : 0 < matrix.cols)
    (hcosts : ∀ row col cost, ¬matrix.IsUnsoundAt row col cost) :
    ∀ cost ∈ matrix.data, isFinite cost = true := by
  intro cost hcost
  obtain ⟨index, hindex, rfl⟩ := Array.mem_iff_getElem.mp hcost
  by_contra hunsound
  refine hcosts (index / matrix.cols) (index % matrix.cols) matrix.data[index] {
    row_lt := (Nat.div_lt_iff_lt_mul hcols).mpr (hindex.trans_eq hshaped)
    col_lt := Nat.mod_lt index hcols
    get?_eq := ?_
    isFinite_eq := Bool.eq_false_iff.mpr hunsound }
  rw [get?, offset, Nat.div_add_mod']
  exact Array.getElem?_eq_getElem hindex

/-- What is refused for no reason before the sentinel is valid. -/
theorem isValid_of_forall (hshaped : matrix.WellShaped)
    (hsides : 0 < matrix.rows ∧ 0 < matrix.cols)
    (hcosts : ∀ row col cost, ¬matrix.IsUnsoundAt row col cost)
    (hinside : ∀ pair, ¬matrix.IsOutside options pair)
    (hpadValue : isFinite options.padValue = true)
    (htolerance : isFinite options.tolerance = true ∧ ¬options.tolerance < 0) :
    matrix.IsValid options where
  wellShaped := hshaped
  rows_pos := hsides.1
  cols_pos := hsides.2
  inside := inside_of_forall hinside
  data_isFinite := data_isFinite_of_forall hshaped hsides.2 hcosts
  padValue_isFinite := hpadValue
  tolerance_isFinite := htolerance.1
  tolerance_nonneg := htolerance.2

/-- The first unsound cell is the one that is refused. -/
theorem checkFinite_eq_error (hshaped : matrix.WellShaped) (hcell : matrix.IsUnsoundAt row col cost)
    (hfirst : ∀ row' col' cost', matrix.IsUnsoundAt row' col' cost' →
      toLex (row, col) ≤ toLex (row', col')) :
    matrix.checkFinite = .error (.refused (.nonFiniteCost row col cost)) := by
  obtain ⟨cells, hcells, hsorted, hmem⟩ := exists_cells?_sorted hshaped
  have hfind : cells.find? (fun cell => !isFinite cell.cost) = some ⟨row, col, cost⟩ := by
    refine (find?_eq_some_iff_of_sorted hsorted).mpr ⟨⟨(hmem _).mpr ?_, ?_⟩, ?_⟩
    · exact ⟨⟨hcell.row_lt, hcell.col_lt⟩, hcell.get?_eq⟩
    · rw [hcell.isFinite_eq]
      rfl
    · intro other hother hunsound
      obtain ⟨⟨hrow, hcol⟩, hget⟩ := (hmem other).mp hother
      exact hfirst _ _ other.cost ⟨hrow, hcol, hget, by simpa using hunsound⟩
  rw [checkFinite, hcells]
  dsimp only
  rw [hfind]

end CostMatrix

namespace Options

variable {row col : Nat}

/-- The first pair outside is the one that is refused. -/
theorem validate_eq_disallowedOutOfRange_iff {rows cols : Nat} :
    options.validate rows cols = .error (.disallowedOutOfRange row col rows cols) ↔
      ((row, col) ∈ options.disallowed.toList ∧ (rows ≤ row ∨ cols ≤ col)) ∧
      ∀ pair ∈ options.disallowed.toList, rows ≤ pair.1 ∨ cols ≤ pair.2 →
        toLex (row, col) ≤ toLex pair := by
  have hfind : options.disallowed.toList.find? (fun pair => rows ≤ pair.1 || cols ≤ pair.2) =
      some (row, col) ↔ ((row, col) ∈ options.disallowed.toList ∧ (rows ≤ row ∨ cols ≤ col)) ∧
        ∀ pair ∈ options.disallowed.toList, rows ≤ pair.1 ∨ cols ≤ pair.2 →
          toLex (row, col) ≤ toLex pair := by
    rw [find?_eq_some_iff_of_sorted options.disallowed.pairwise_toList]
    simp only [Bool.or_eq_true, decide_eq_true_eq]
  rw [← hfind, validate]
  split
  · next row' col' hpair => simp [hpair]
  · next hnone =>
      rw [hnone]
      split_ifs <;> simp

/-- Where no pair lies outside, the two numbers are checked. -/
theorem validate_eq_of_inside
    (hinside : ∀ pair ∈ options.disallowed.toList, pair.1 < matrix.rows ∧ pair.2 < matrix.cols) :
    options.validate matrix.rows matrix.cols =
      if !isFinite options.padValue then .error (.nonFinitePadValue options.padValue)
      else if !isFinite options.tolerance || options.tolerance < 0 then
        .error (.invalidTolerance options.tolerance)
      else .ok () := by
  have hfind : options.disallowed.toList.find? (fun pair =>
      matrix.rows ≤ pair.1 || matrix.cols ≤ pair.2) = none := by
    refine List.find?_eq_none.mpr fun pair hpair => ?_
    have hlt := hinside pair hpair
    simp only [Bool.or_eq_true, decide_eq_true_eq]
    omega
  rw [validate, hfind]

end Options

namespace Problem

variable {error : SolveError α}

theorem check_eq_error_of_validate (hshaped : matrix.WellShaped)
    (hsides : 0 < matrix.rows ∧ 0 < matrix.cols)
    (hcosts : ∀ row col cost, ¬matrix.IsUnsoundAt row col cost)
    (hvalidate : options.validate matrix.rows matrix.cols = .error error) :
    check matrix options = .error (.refused error) := by
  have hfinite := (CostMatrix.checkFinite_eq_ok_iff hsides.2).mpr
    (CostMatrix.data_isFinite_of_forall hshaped hsides.2 hcosts)
  rw [check, if_neg (CostMatrix.not_isEmpty_iff.mpr hsides), hfinite, hvalidate]
  rfl

/-- All reasons but the sentinel are found by the checks. -/
theorem check_eq_error_of_refuses (hshaped : matrix.WellShaped) (hother : error ≠ .costOverflow)
    (h : Refuses matrix options error) : check matrix options = .error (.refused error) := by
  cases h with
  | emptyMatrix hempty =>
      refine if_pos ?_
      simpa [CostMatrix.isEmpty] using hempty
  | nonFiniteCost hsides hcell hfirst =>
      rw [check, if_neg (CostMatrix.not_isEmpty_iff.mpr hsides),
        CostMatrix.checkFinite_eq_error hshaped hcell hfirst]
      rfl
  | disallowedOutOfRange hsides hcosts hpair hfirst =>
      exact check_eq_error_of_validate hshaped hsides hcosts
        (Options.validate_eq_disallowedOutOfRange_iff.mpr
          ⟨⟨hpair.mem, hpair.outside⟩, fun pair hmem houtside => hfirst pair ⟨hmem, houtside⟩⟩)
  | nonFinitePadValue hsides hcosts hinside hpadValue =>
      apply check_eq_error_of_validate hshaped hsides hcosts
      rw [Options.validate_eq_of_inside (CostMatrix.inside_of_forall hinside), hpadValue]
      rfl
  | invalidTolerance hsides hcosts hinside hpadValue htolerance =>
      apply check_eq_error_of_validate hshaped hsides hcosts
      have hrefused : (!isFinite options.tolerance || options.tolerance < 0) = true := by
        simpa using htolerance
      rw [Options.validate_eq_of_inside (CostMatrix.inside_of_forall hinside), hpadValue, hrefused]
      rfl
  | costOverflow => exact absurd rfl hother

/-- Valid input becomes the problem of its grid, if the sentinel is finite. -/
theorem normalize_eq_of_isValid (h : matrix.IsValid options) : normalize matrix options =
    (ofSquare matrix.rows matrix.cols (transformed options (matrix.grid options.padValue))
      (options.disallowed.mask matrix.side) options.tolerance).mapError .refused :=
  h.normalize_eq (CostMatrix.padded_eq_ok h.wellShaped _)

theorem normalize_eq_error_of_refuses (hshaped : matrix.WellShaped)
    (h : Refuses matrix options error) :
    normalize matrix options = .error (.refused error) := by
  by_cases hother : error = .costOverflow
  · subst hother
    cases h with
    | costOverflow hsides hcosts hinside hpadValue htolerance hsentinel =>
        have hvalid :=
          CostMatrix.isValid_of_forall hshaped hsides hcosts hinside hpadValue htolerance
        rw [normalize_eq_of_isValid hvalid, ofSquare, CostMatrix.freeCosts_transformed_grid,
          ← CostMatrix.sentinelCost, hsentinel]
        rfl
  · exact normalize_eq_error_of_check (check_eq_error_of_refuses hshaped hother h)

/-- Of the places that have a property one is the first. -/
theorem exists_first {property : Nat → Nat → Prop} (h : ∃ row col, property row col) :
    ∃ row col, property row col ∧
      ∀ row' col', property row' col' → toLex (row, col) ≤ toLex (row', col') := by
  obtain ⟨row, col, hplace⟩ := h
  obtain ⟨place, hmem, hfirst⟩ := wellFounded_lt.has_min
    { place : ℕ ×ₗ ℕ | property (ofLex place).1 (ofLex place).2 } ⟨toLex (row, col), hplace⟩
  exact ⟨_, _, hmem, fun row' col' hplace' => not_lt.mp (hfirst (toLex (row', col')) hplace')⟩

/-- A matrix is refused, or valid. -/
theorem exists_refuses_or_isValid (hshaped : matrix.WellShaped) :
    (∃ error, Refuses matrix options error) ∨
      matrix.IsValid options ∧ isFinite (matrix.sentinelCost options) = true := by
  -- the reasons are tried in the order of the checks, each where the ones before do not hold
  by_cases hsides : 0 < matrix.rows ∧ 0 < matrix.cols
  swap
  · exact .inl ⟨_, .emptyMatrix (by omega)⟩
  by_cases hcosts : ∃ row col, ∃ cost, matrix.IsUnsoundAt row col cost
  · obtain ⟨row, col, ⟨cost, hcell⟩, hfirst⟩ := exists_first hcosts
    exact .inl ⟨_, .nonFiniteCost hsides hcell fun row' col' cost' hcell' =>
      hfirst row' col' ⟨cost', hcell'⟩⟩
  replace hcosts : ∀ row col cost, ¬matrix.IsUnsoundAt row col cost := by
    simpa only [not_exists] using hcosts
  by_cases hinside : ∃ row col, matrix.IsOutside options (row, col)
  · obtain ⟨row, col, hpair, hfirst⟩ := exists_first hinside
    exact .inl ⟨_, .disallowedOutOfRange hsides hcosts hpair fun pair => hfirst pair.1 pair.2⟩
  replace hinside : ∀ pair, ¬matrix.IsOutside options pair := fun pair hpair =>
    hinside ⟨pair.1, pair.2, hpair⟩
  cases hpadValue : isFinite options.padValue with
  | false => exact .inl ⟨_, .nonFinitePadValue hsides hcosts hinside hpadValue⟩
  | true =>
      by_cases htolerance : isFinite options.tolerance = true ∧ ¬options.tolerance < 0
      swap
      · refine .inl ⟨_, .invalidTolerance hsides hcosts hinside hpadValue ?_⟩
        rwa [not_and_or, Bool.not_eq_true, not_not] at htolerance
      cases hsentinel : isFinite (matrix.sentinelCost options) with
      | false => exact .inl ⟨_, .costOverflow hsides hcosts hinside hpadValue htolerance hsentinel⟩
      | true =>
          refine .inr ⟨?_, rfl⟩
          exact CostMatrix.isValid_of_forall hshaped hsides hcosts hinside hpadValue htolerance

theorem exists_normalize_eq_ok_of_isValid (h : matrix.IsValid options)
    (hsentinel : isFinite (matrix.sentinelCost options) = true) :
    ∃ problem, normalize matrix options = .ok problem := by
  rw [normalize_eq_of_isValid h, ofSquare, CostMatrix.freeCosts_transformed_grid,
    ← CostMatrix.sentinelCost, hsentinel]
  exact ⟨_, rfl⟩

/-- Normalization fails exactly for the reasons above, and never without one. -/
theorem normalize_eq_error_iff_refuses (hshaped : matrix.WellShaped) {failure : Failure α} :
    normalize matrix options = .error failure ↔
      ∃ error, failure = .refused error ∧ Refuses matrix options error := by
  constructor
  · intro h
    rcases exists_refuses_or_isValid hshaped with ⟨error, hrefuses⟩ | ⟨hvalid, hsentinel⟩
    · rw [normalize_eq_error_of_refuses hshaped hrefuses, Except.error.injEq] at h
      exact ⟨error, h.symm, hrefuses⟩
    · obtain ⟨problem, hproblem⟩ := exists_normalize_eq_ok_of_isValid hvalid hsentinel
      exact absurd (hproblem.symm.trans h) (by simp)
  · rintro ⟨error, rfl, hrefuses⟩
    exact normalize_eq_error_of_refuses hshaped hrefuses

/-- What is not refused is valid. -/
theorem isValid_of_normalize (hshaped : matrix.WellShaped) {problem : Problem α matrix.side}
    (h : normalize matrix options = .ok problem) :
    matrix.IsValid options ∧ isFinite (matrix.sentinelCost options) = true := by
  refine (exists_refuses_or_isValid hshaped).resolve_left ?_
  rintro ⟨error, hrefuses⟩
  exact absurd (h.symm.trans (normalize_eq_error_of_refuses hshaped hrefuses)) (by simp)

theorem sentinel_eq_of_normalize (hshaped : matrix.WellShaped) {problem : Problem α matrix.side}
    (h : normalize matrix options = .ok problem) :
    problem.sentinel = matrix.sentinelCost options := by
  rw [normalize_eq_of_isValid (isValid_of_normalize hshaped h).1, ofSquare,
    CostMatrix.freeCosts_transformed_grid] at h
  split at h
  · cases h
    rfl
  · cases h

/-- The cells of a normalized problem. -/
theorem cost_eq_of_normalize (hshaped : matrix.WellShaped) {problem : Problem α matrix.side}
    (h : normalize matrix options = .ok problem) (row col : Fin matrix.side) :
    problem.cost row col = if options.disallowed.contains row col then
        matrix.sentinelCost options
      else matrix.countedCost options row col := by
  obtain ⟨padded, hpadded, hsquare⟩ := exists_ofSquare_of_normalize h
  rw [CostMatrix.padded_eq_ok hshaped, Except.ok.injEq] at hpadded
  rw [← hpadded] at hsquare
  rw [cost_ofSquare hsquare, (frames_of_normalize h).isForbidden_eq,
    sentinel_eq_of_normalize hshaped h, CostMatrix.get_transformed_grid]

end Problem

end Hungarian
