import Hungarian.Problem.Normalize

/-!
# Normalized problems

What a normalized problem keeps of its matrix and its options, whatever the arithmetic.
-/

namespace Hungarian

variable {α : Type} {matrix : CostMatrix α} {options : Options α}

theorem exists_refused_of_mapError {β : Type} {result : Except (SolveError α) β}
    {failure : Failure α} (h : result.mapError .refused = .error failure) :
    ∃ error, failure = .refused error := by
  cases result with
  | error error => exact ⟨error, (Except.error.inj h).symm⟩
  | ok => cases h

theorem CostMatrix.not_isEmpty_iff :
    ¬matrix.isEmpty = true ↔ 0 < matrix.rows ∧ 0 < matrix.cols := by
  simp only [isEmpty, Bool.or_eq_true, beq_iff_eq]
  omega

namespace CostMatrix

theorem exists_cells?_eq_some (matrix : CostMatrix α) (hcols : 0 < matrix.cols) :
    ∃ cells, matrix.cells? = some cells ∧ cells.map Cell.cost = matrix.data.toList := by
  refine ⟨_, if_neg (by omega), ?_⟩
  rw [List.map_map]
  exact List.zipIdx_map_fst 0 matrix.data.toList

theorem exists_refused_of_checkFinite [CostArithmetic α] {failure : Failure α}
    (hcols : 0 < matrix.cols) (h : matrix.checkFinite = .error failure) :
    ∃ error, failure = .refused error := by
  obtain ⟨cells, hcells, -⟩ := matrix.exists_cells?_eq_some hcols
  rw [checkFinite, hcells] at h
  dsimp only at h
  split at h
  · exact ⟨_, (Except.error.inj h).symm⟩
  · cases h

theorem checkFinite_eq_ok_iff [CostArithmetic α] (hcols : 0 < matrix.cols) :
    matrix.checkFinite = .ok () ↔ ∀ cost ∈ matrix.data, CostArithmetic.isFinite cost = true := by
  obtain ⟨cells, hcells, hcosts⟩ := matrix.exists_cells?_eq_some hcols
  have hdata : (∀ cost ∈ matrix.data, CostArithmetic.isFinite cost = true) ↔
      cells.find? (fun cell => !CostArithmetic.isFinite cell.cost) = none := by
    simp only [← Array.mem_toList_iff, ← hcosts, List.forall_mem_map, List.find?_eq_none,
      Bool.not_eq_true', Bool.not_eq_false]
  rw [hdata, checkFinite, hcells]
  dsimp only
  split <;> simp [*]

end CostMatrix

/-- Options are sound when no forbidden pair lies outside the shape, the pad value is finite, and
the tolerance is finite and not negative. -/
theorem Options.validate_eq_ok_iff [CostArithmetic α] {rows cols : Nat} :
    options.validate rows cols = .ok () ↔
      (∀ pair ∈ options.disallowed.toList, pair.1 < rows ∧ pair.2 < cols) ∧
      CostArithmetic.isFinite options.padValue = true ∧
      CostArithmetic.isFinite options.tolerance = true ∧ ¬options.tolerance < 0 := by
  rw [validate]
  cases hfind : options.disallowed.toList.find? fun pair => rows ≤ pair.1 || cols ≤ pair.2 with
  | some pair =>
      have houtside : rows ≤ pair.1 ∨ cols ≤ pair.2 := by simpa using List.find?_some hfind
      have hmem := List.mem_of_find?_eq_some hfind
      refine iff_of_false (by simp) fun hsound => ?_
      have hinside := hsound.1 pair hmem
      omega
  | none =>
      have hinside : ∀ pair ∈ options.disallowed.toList, pair.1 < rows ∧ pair.2 < cols := by
        intro pair hpair
        have hnot := List.find?_eq_none.mp hfind pair hpair
        simp only [Bool.or_eq_true, decide_eq_true_eq] at hnot
        omega
      rw [and_iff_right hinside]
      cases CostArithmetic.isFinite options.padValue <;>
        cases CostArithmetic.isFinite options.tolerance <;>
        by_cases hnegative : options.tolerance < 0 <;> simp [hnegative]

namespace Problem

structure Frames (matrix : CostMatrix α) (options : Options α)
    (problem : Problem α matrix.side) : Prop where
  rows_eq : problem.rows = matrix.rows
  cols_eq : problem.cols = matrix.cols
  epsilon_eq : problem.epsilon = options.tolerance
  isForbidden_eq : ∀ row col, problem.isForbidden row col = options.disallowed.contains row col

namespace Frames

variable {problem : Problem α matrix.side} {row col : Fin matrix.side}

theorem size_eq (h : problem.Frames matrix options) :
    matrix.side = max problem.rows problem.cols := by
  rw [h.rows_eq, h.cols_eq, CostMatrix.side]

theorem isAllowed_iff (h : problem.Frames matrix options) : problem.isAllowed row col ↔
    (row < matrix.rows ∧ col < matrix.cols) ∧ options.disallowed.contains row col = false := by
  rw [Problem.isAllowed_iff, isPadding_eq_false_iff, h.isForbidden_eq, h.rows_eq, h.cols_eq]

end Frames

theorem mem_freeCosts {size : Nat} {costs : Square α size} {forbidden : Square Bool size}
    {cost : α} : cost ∈ freeCosts costs forbidden ↔
      ∃ row col, forbidden.get row col = false ∧ costs.get row col = cost := by
  simp only [freeCosts, List.mem_filterMap, Square.mem_places, true_and, Prod.exists,
    Option.ite_none_left_eq_some, Option.some.injEq, Bool.not_eq_true]

variable [CostArithmetic α]

def transformed {size : Nat} (options : Options α) (costs : Square α size) : Square α size :=
  if options.maximize then complement costs else costs

theorem exists_ofSquare_of_normalize {problem : Problem α matrix.side}
    (h : normalize matrix options = .ok problem) :
    ∃ padded, matrix.padded options.padValue = .ok padded ∧
      ofSquare matrix.rows matrix.cols (transformed options padded)
        (options.disallowed.mask matrix.side) options.tolerance = .ok problem := by
  unfold normalize at h
  cases hcheck : check matrix options with
  | error => rw [hcheck] at h; cases h
  | ok =>
      cases hpadded : matrix.padded options.padValue with
      | error => rw [hcheck, hpadded] at h; cases h
      | ok padded =>
          refine ⟨padded, rfl, ?_⟩
          rw [hcheck, hpadded] at h
          dsimp only [bind, Except.bind] at h
          cases hsquare : ofSquare matrix.rows matrix.cols (transformed options padded)
            (options.disallowed.mask matrix.side) options.tolerance with
          | error => rw [transformed] at hsquare; rw [hsquare] at h; cases h
          | ok => rw [transformed] at hsquare; rw [hsquare] at h; cases h; rfl

theorem frames_of_normalize {problem : Problem α matrix.side}
    (h : normalize matrix options = .ok problem) : problem.Frames matrix options := by
  obtain ⟨padded, -, hsquare⟩ := exists_ofSquare_of_normalize h
  generalize transformed options padded = costs at hsquare
  unfold ofSquare at hsquare
  dsimp only at hsquare
  split at hsquare
  · cases hsquare
    exact ⟨rfl, rfl, rfl, fun row col => Square.get_ofFn _ row col⟩
  · cases hsquare

theorem check_of_normalize {problem : Problem α matrix.side}
    (h : normalize matrix options = .ok problem) : check matrix options = .ok () := by
  unfold normalize at h
  cases hcheck : check matrix options with
  | error => rw [hcheck] at h; cases h
  | ok => rfl

theorem normalize_eq_error_of_check {failure : Failure α}
    (h : check matrix options = .error failure) : normalize matrix options = .error failure := by
  rw [normalize, h]
  rfl

theorem check_eq_ok_iff : check matrix options = .ok () ↔
    (0 < matrix.rows ∧ 0 < matrix.cols) ∧ matrix.checkFinite = .ok () ∧
      options.validate matrix.rows matrix.cols = .ok () := by
  rw [← CostMatrix.not_isEmpty_iff, check]
  split
  · next hempty => simp [hempty]
  · next hempty =>
      cases hfinite : matrix.checkFinite with
      | error failure => exact iff_of_false (fun h => by cases h) fun h => by cases h.2.1
      | ok =>
          cases hvalidate : options.validate matrix.rows matrix.cols with
          | error failure => exact iff_of_false (fun h => by cases h) fun h => by cases h.2.2
          | ok => exact iff_of_true rfl ⟨hempty, rfl, rfl⟩

/-- What is refused before the costs are copied is refused with an error for the caller. -/
theorem exists_refused_of_check {failure : Failure α} (h : check matrix options = .error failure) :
    ∃ error, failure = .refused error := by
  unfold check at h
  split at h
  · exact ⟨_, (Except.error.inj h).symm⟩
  · next hempty =>
      cases hfinite : matrix.checkFinite with
      | error =>
          rw [hfinite] at h
          cases h
          exact CostMatrix.exists_refused_of_checkFinite (CostMatrix.not_isEmpty_iff.mp hempty).2
            hfinite
      | ok =>
          rw [hfinite] at h
          exact exists_refused_of_mapError h

theorem validate_of_normalize {problem : Problem α matrix.side}
    (h : normalize matrix options = .ok problem) :
    options.validate matrix.rows matrix.cols = .ok () :=
  (check_eq_ok_iff.mp (check_of_normalize h)).2.2

/-- The tolerance of a problem is that of options that were found sound. -/
theorem epsilon_nonneg_of_normalize {problem : Problem α matrix.side}
    (h : normalize matrix options = .ok problem) : ¬problem.epsilon < 0 := by
  rw [(frames_of_normalize h).epsilon_eq]
  exact (Options.validate_eq_ok_iff.mp (validate_of_normalize h)).2.2.2

end Problem

namespace CostMatrix

section Shape

variable {padValue : α} {row col : Nat}

def gridCost (matrix : CostMatrix α) (padValue : α) (row col : Nat) : α :=
  if row < matrix.rows ∧ col < matrix.cols then (matrix.get? row col).getD padValue else padValue

def grid (matrix : CostMatrix α) (padValue : α) : Square α matrix.side :=
  .ofFn fun row col => matrix.gridCost padValue row col

theorem get?_eq_none_of_le (h : matrix.WellShaped) (hrow : matrix.rows ≤ row) :
    matrix.get? row col = none := by
  rw [WellShaped] at h
  have hrows : matrix.rows * matrix.cols ≤ row * matrix.cols := Nat.mul_le_mul_right _ hrow
  apply Array.getElem?_eq_none
  rw [offset]
  omega

theorem get?_eq_some_gridCost (h : matrix.WellShaped) (padValue : α) (hrow : row < matrix.rows)
    (hcol : col < matrix.cols) : matrix.get? row col = some (matrix.gridCost padValue row col) := by
  obtain ⟨cost, hget⟩ := exists_get?_eq_some h hrow hcol
  rw [gridCost, if_pos ⟨hrow, hcol⟩, hget, Option.getD_some]

theorem gridCost_of_outside (h : ¬(row < matrix.rows ∧ col < matrix.cols)) :
    matrix.gridCost padValue row col = padValue :=
  if_neg h

theorem padded_eq_ok (h : matrix.WellShaped) (padValue : α) :
    matrix.padded padValue = .ok (matrix.grid padValue) := by
  have hrows : matrix.rows * matrix.cols ≤ matrix.side * matrix.cols :=
    Nat.mul_le_mul_right _ (Nat.le_max_left _ _)
  have hroom : ¬matrix.side * matrix.cols < matrix.data.size := by
    rw [h]
    omega
  rw [padded, if_neg hroom, grid]
  congr 2
  funext row col
  by_cases hcol : (col : Nat) < matrix.cols
  · by_cases hrow : (row : Nat) < matrix.rows
    · rw [if_pos hcol, gridCost, if_pos ⟨hrow, hcol⟩]
    · -- below the last row there is no stored cell to read
      rw [if_pos hcol, get?_eq_none_of_le h (Nat.le_of_not_lt hrow),
        gridCost_of_outside fun hinside => hrow hinside.1, Option.getD_none]
  · rw [if_neg hcol, gridCost_of_outside fun hinside => hcol hinside.2]

end Shape

variable [CostArithmetic α]

structure IsValid (matrix : CostMatrix α) (options : Options α) : Prop where
  wellShaped : matrix.WellShaped
  rows_pos : 0 < matrix.rows
  cols_pos : 0 < matrix.cols
  inside : ∀ pair ∈ options.disallowed.toList, pair.1 < matrix.rows ∧ pair.2 < matrix.cols
  data_isFinite : ∀ cost ∈ matrix.data, CostArithmetic.isFinite cost = true
  padValue_isFinite : CostArithmetic.isFinite options.padValue = true
  tolerance_isFinite : CostArithmetic.isFinite options.tolerance = true
  tolerance_nonneg : ¬options.tolerance < 0

namespace IsValid

variable (h : matrix.IsValid options)

include h

theorem checkFinite_eq_ok : matrix.checkFinite = .ok () :=
  (checkFinite_eq_ok_iff h.cols_pos).mpr h.data_isFinite

theorem check_eq_ok : Problem.check matrix options = .ok () := by
  rw [Problem.check_eq_ok_iff, Options.validate_eq_ok_iff]
  exact ⟨⟨h.rows_pos, h.cols_pos⟩, h.checkFinite_eq_ok, h.inside, h.padValue_isFinite,
    h.tolerance_isFinite, h.tolerance_nonneg⟩

/-- Valid input is refused for its sentinel only. -/
theorem normalize_eq {padded : Square α matrix.side}
    (hpadded : matrix.padded options.padValue = .ok padded) :
    Problem.normalize matrix options =
      (Problem.ofSquare matrix.rows matrix.cols (Problem.transformed options padded)
        (options.disallowed.mask matrix.side) options.tolerance).mapError .refused := by
  rw [Problem.normalize, h.check_eq_ok, hpadded]
  rfl

end IsValid

end CostMatrix

end Hungarian
