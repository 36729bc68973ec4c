import Hungarian.Proofs.Double.Finite
import Hungarian.Proofs.Flat.Problem
import Hungarian.Proofs.Problem.Refusal

/-!
# Normalized tables of numbers

A matrix that is not refused becomes a problem whose cells can be told one by one from the matrix
and its options. What a cell is short of the greatest one may overflow, but never without the
sentinel, so that all cells of a problem are finite.
-/

namespace Hungarian

open CostArithmetic

namespace Double

/-- A finite sentinel has finite costs below it. -/
theorem isFinite_of_isFinite_sentinelOver {size : Nat} {costs : List Float}
    (hnumbers : ∀ cost ∈ costs, kind cost ≠ .notANumber)
    (h : (Problem.sentinelOver size costs).isFinite = true) {cost : Float} (hcost : cost ∈ costs) :
    cost.isFinite = true := by
  have hne : costs ≠ [] := List.ne_nil_of_mem hcost
  obtain ⟨hhigh, hspread⟩ := isFinite_of_add (isFinite_of_add h).1
  have hlow := (isFinite_of_sub (isFinite_of_mul hspread).2).2
  exact isFinite_of_le_of_le hlow hhigh ((least?_mem_and_le hne hnumbers).2 cost hcost)
    ((greatest?_mem_and_le hne hnumbers).2 cost hcost)

end Double

variable {matrix : CostMatrix Float} {options : Options Float}

namespace CostMatrix.IsValid

variable (h : matrix.IsValid options)

include h

theorem isFinite_gridCost (row col : Nat) :
    (matrix.gridCost options.padValue row col).isFinite = true := by
  by_cases hinside : row < matrix.rows ∧ col < matrix.cols
  · have hget := get?_eq_some_gridCost h.wellShaped options.padValue hinside.1 hinside.2
    exact h.data_isFinite _ (Array.mem_of_getElem? hget)
  · rw [gridCost_of_outside hinside]
    exact h.padValue_isFinite

/-- The greatest cost of the padded matrix is one of its costs, and at least as high as each. -/
theorem gridTop_mem_and_le :
    (∃ row col : Fin matrix.side,
      matrix.gridCost options.padValue row col = matrix.gridTop options.padValue) ∧
    ∀ row col : Fin matrix.side,
      matrix.gridCost options.padValue row col ≤ matrix.gridTop options.padValue := by
  have hmem : ∀ cost, cost ∈ (matrix.grid options.padValue).toList ↔
      ∃ row col : Fin matrix.side, matrix.gridCost options.padValue row col = cost := by
    intro cost
    rw [Square.mem_toList]
    exact exists₂_congr fun row col => by rw [grid, Square.get_ofFn]
  have hside : 0 < matrix.side := h.rows_pos.trans_le (Nat.le_max_left _ _)
  have hne := List.ne_nil_of_mem ((hmem _).mpr ⟨⟨0, hside⟩, ⟨0, hside⟩, rfl⟩)
  obtain ⟨htop, hle⟩ := Double.greatest?_mem_and_le hne fun cost hcost => by
    obtain ⟨row, col, rfl⟩ := (hmem cost).mp hcost
    exact Double.kind_ne_notANumber (h.isFinite_gridCost row col)
  exact ⟨(hmem _).mp htop, fun row col => hle _ ((hmem _).mpr ⟨row, col, rfl⟩)⟩

theorem kind_countedCost_ne_notANumber (row col : Nat) :
    Double.kind (matrix.countedCost options row col) ≠ .notANumber := by
  have hcost := h.isFinite_gridCost row col
  rw [countedCost]
  split
  · obtain ⟨⟨row', col', htop⟩, -⟩ := h.gridTop_mem_and_le
    rw [← htop]
    exact Double.kind_sub_ne_notANumber (h.isFinite_gridCost row' col') hcost
  · exact Double.kind_ne_notANumber hcost

/-- Where the sentinel is finite, so is every cell that is not forbidden. -/
theorem isFinite_countedCost (hsentinel : isFinite (matrix.sentinelCost options) = true)
    {row col : Fin matrix.side} (hfree : options.disallowed.contains row col = false) :
    (matrix.countedCost options row col).isFinite = true := by
  refine Double.isFinite_of_isFinite_sentinelOver (fun cost hcost => ?_) hsentinel
    (mem_countedCosts.mpr ⟨row, col, hfree, rfl⟩)
  obtain ⟨row', col', -, rfl⟩ := mem_countedCosts.mp hcost
  exact h.kind_countedCost_ne_notANumber row' col'

end CostMatrix.IsValid

namespace Problem

/-- Cell by cell, a problem holds what its matrix and its options say. -/
structure Tabulates (matrix : CostMatrix Float) (options : Options Float)
    (problem : Problem Float matrix.side) : Prop where
  frames : problem.Frames matrix options
  isForbidden_iff : ∀ row col, problem.isForbidden row col = true ↔
    (row.val, col.val) ∈ options.disallowed.toList
  get?_eq : ∀ row col, row < matrix.rows → col < matrix.cols →
    matrix.get? row col = some (matrix.gridCost options.padValue row col)
  gridCost_eq_padValue : ∀ row col, ¬(row < matrix.rows ∧ col < matrix.cols) →
    matrix.gridCost options.padValue row col = options.padValue
  gridTop_mem : ∃ row col : Fin matrix.side,
    matrix.gridCost options.padValue row col = matrix.gridTop options.padValue
  le_gridTop : ∀ row col : Fin matrix.side,
    matrix.gridCost options.padValue row col ≤ matrix.gridTop options.padValue
  sentinel_eq : problem.sentinel = matrix.sentinelCost options
  cost_eq : ∀ row col, problem.cost row col =
    if (row.val, col.val) ∈ options.disallowed.toList then
      problem.sentinel
    else if options.maximize then
      matrix.gridTop options.padValue - matrix.gridCost options.padValue row col
    else
      matrix.gridCost options.padValue row col
  isFinite_cost : ∀ row col, (problem.cost row col).isFinite = true

/-- A problem that was made is the table of its matrix. -/
theorem tabulates_of_normalize (hshaped : matrix.WellShaped) {problem : Problem Float matrix.side}
    (h : normalize matrix options = .ok problem) : problem.Tabulates matrix options := by
  obtain ⟨hvalid, hsentinel⟩ := isValid_of_normalize hshaped h
  have hframes := frames_of_normalize h
  have hforbidden : ∀ row col, problem.isForbidden row col = true ↔
      (row.val, col.val) ∈ options.disallowed.toList := by
    intro row col
    rw [hframes.isForbidden_eq, ForbiddenPairs.contains_iff]
  refine {
    frames := hframes
    isForbidden_iff := hforbidden
    get?_eq := fun row col => CostMatrix.get?_eq_some_gridCost hshaped options.padValue
    gridCost_eq_padValue := fun row col => CostMatrix.gridCost_of_outside
    gridTop_mem := hvalid.gridTop_mem_and_le.1
    le_gridTop := hvalid.gridTop_mem_and_le.2
    sentinel_eq := sentinel_eq_of_normalize hshaped h
    cost_eq := fun row col => ?_
    isFinite_cost := fun row col => ?_ }
  · simp only [cost_eq_of_normalize hshaped h, sentinel_eq_of_normalize hshaped h,
      ← ForbiddenPairs.contains_iff]
    rfl
  · rw [cost_eq_of_normalize hshaped h]
    split
    · exact hsentinel
    · next hfree => exact hvalid.isFinite_countedCost hsentinel (Bool.eq_false_iff.mpr hfree)

/-- **Normalization, cell by cell.** A matrix is refused for the first of the six reasons that
there is, and for none otherwise: it then becomes a problem whose cells are those that the matrix
and the options call for, all finite. Where there is room for its square, copying the matrix into
flat arrays of two different widths makes the same problem or fails for the same reason. Where there
is none, that faults after the checks, which come first in any case. -/
theorem normalize_eq_error_iff_and_tabulates (hshaped : matrix.WellShaped)
    (options : Options Float) :
    (∀ failure, normalize matrix options = .error failure ↔
      ∃ error, failure = .refused error ∧ Refuses matrix options error) ∧
    ((∃ problem, normalize matrix options = .ok problem ∧ problem.Tabulates matrix options) ↔
      ∀ error, ¬Refuses matrix options error) ∧
    (matrix.side < sideLimit →
      FlatProblem.normalize matrix options = (normalize matrix options).map Problem.flat) ∧
    (sideLimit ≤ matrix.side → matrix.side * matrix.side < indexLimit →
      FlatProblem.normalize matrix options =
        (check matrix options).bind fun _ => .error (.faulted .oversized)) ∧
    (matrix.side * matrix.side < indexLimit → FlatProblem.normalize matrix options =
      (normalizeInMemory matrix options).map Problem.flat) ∧
    (∀ error, error ≠ .costOverflow → Refuses matrix options error →
      FlatProblem.normalize matrix options = .error (.refused error)) := by
  refine ⟨fun failure => normalize_eq_error_iff_refuses hshaped, ?_,
    fun hside => FlatProblem.normalize_eq hside options,
    fun hside hproduct => FlatProblem.normalize_of_oversized hproduct hside options,
    fun hproduct => FlatProblem.normalize_eq_normalizeInMemory hproduct options,
    fun error hother hrefuses =>
      FlatProblem.normalize_eq_error_of_check (check_eq_error_of_refuses hshaped hother hrefuses)⟩
  constructor
  · rintro ⟨problem, hproblem, -⟩ error hrefuses
    have herror := normalize_eq_error_of_refuses hshaped hrefuses
    exact absurd (hproblem.symm.trans herror) (by simp)
  · intro hnone
    obtain ⟨hvalid, hsentinel⟩ := (exists_refuses_or_isValid hshaped).resolve_left fun ⟨error, h⟩ =>
      hnone error h
    obtain ⟨problem, hproblem⟩ := exists_normalize_eq_ok_of_isValid hvalid hsentinel
    exact ⟨problem, hproblem, tabulates_of_normalize hshaped hproblem⟩

def bids : CostMatrix Float where
  data := #[3, 1]
  rows := 1
  cols := 2

def bidOptions : Options Float where
  maximize := true
  disallowed := .ofList [(0, .ofList [1])]
  padValue := -1
  tolerance := 0

def spoiledOptions : Options Float where
  maximize := true
  disallowed := .ofList [(2, .ofList [0]), (0, .ofList [1, 5, 7])]
  padValue := Double.infinity
  tolerance := -1

/-- The bids cost what they are short of the highest one, and the sentinel is 4 + 2 · 4 + 1. Of
four reasons to refuse them the pair (0, 5) is the first. -/
theorem normalize_eq_error_iff_and_tabulates_bids :
    (∃ problem, normalize bids bidOptions = .ok problem ∧ problem.Tabulates bids bidOptions ∧
      problem.costs.toList = [0, 13, 4, 4]) ∧
    Refuses bids spoiledOptions (.disallowedOutOfRange 0 5 1 2) := by
  have hshaped : bids.WellShaped := by decide
  have hbids := normalize_eq_error_iff_and_tabulates hshaped bidOptions
  have hspoiled := normalize_eq_error_iff_and_tabulates hshaped spoiledOptions
  constructor
  · have hrun : (normalize bids bidOptions).toOption.any (fun problem =>
        problem.costs.toList = [0, 13, 4, 4]) = true := by decide +kernel
    obtain ⟨problem, hproblem, hcosts⟩ := exists_ok_of_any hrun
    obtain ⟨other, hother, htabulates⟩ := hbids.2.1.mpr fun error hrefuses => by
      have herror := (hbids.1 _).mpr ⟨error, rfl, hrefuses⟩
      exact absurd (hproblem.symm.trans herror) (by simp)
    obtain rfl := Except.ok.inj (hother.symm.trans hproblem)
    exact ⟨other, hproblem, htabulates, of_decide_eq_true hcosts⟩
  · have hcheck : check bids spoiledOptions =
        .error (.refused (.disallowedOutOfRange 0 5 1 2)) := by decide +kernel
    obtain ⟨error, heq, hrefuses⟩ := (hspoiled.1 _).mp (normalize_eq_error_of_check hcheck)
    rwa [Failure.refused.inj heq]

section Widest

theorem countedCost_widest_of_inside {row col : Nat} (hrow : row < 1) (hcol : col < sideLimit) :
    widest.countedCost widestOptions row col = 0 := by
  have hget := CostMatrix.get?_eq_some_gridCost isValid_widest.wellShaped widestOptions.padValue
    hrow hcol
  exact (Array.mem_replicate.mp (Array.mem_of_getElem? hget)).2

theorem countedCost_widest_of_outside {row col : Nat} (hrow : ¬row < 1) :
    widest.countedCost widestOptions row col = 1e308 :=
  CostMatrix.gridCost_of_outside fun hinside => hrow hinside.1

/-- The costs from which the sentinel would be computed are the zeros and the pad values. -/
theorem mem_countedCosts_widest {cost : Float} :
    cost ∈ widest.countedCosts widestOptions ↔ cost = 0 ∨ cost = 1e308 := by
  have hside : widest.side = sideLimit := by decide
  rw [CostMatrix.mem_countedCosts]
  constructor
  · rintro ⟨row, col, -, rfl⟩
    by_cases hrow : (row : Nat) < 1
    · exact .inl (countedCost_widest_of_inside hrow (col.isLt.trans_eq hside))
    · exact .inr (countedCost_widest_of_outside hrow)
  · rintro (rfl | rfl)
    · exact ⟨⟨0, by decide⟩, ⟨0, by decide⟩, rfl,
        countedCost_widest_of_inside Nat.zero_lt_one (by decide)⟩
    · exact ⟨⟨1, by decide⟩, ⟨0, by decide⟩, rfl, countedCost_widest_of_outside (by decide)⟩

theorem isFinite_sentinelCost_widest : (widest.sentinelCost widestOptions).isFinite = false := by
  have hzero := mem_countedCosts_widest.mpr (.inl rfl)
  have hpad := mem_countedCosts_widest.mpr (.inr rfl)
  have hnumbers : ∀ cost ∈ widest.countedCosts widestOptions,
      Double.kind cost ≠ .notANumber := by
    intro cost hcost
    rcases mem_countedCosts_widest.mp hcost with rfl | rfl
    · exact Double.kind_ne_notANumber (by decide +kernel)
    · exact Double.kind_ne_notANumber (by decide +kernel)
  have hne := List.ne_nil_of_mem hzero
  obtain ⟨hlow, hbelow⟩ := Double.least?_mem_and_le hne hnumbers
  obtain ⟨hhigh, habove⟩ := Double.greatest?_mem_and_le hne hnumbers
  have hleast : (least? (widest.countedCosts widestOptions)).getD 0 = 0 := by
    refine (mem_countedCosts_widest.mp hlow).resolve_right fun heq => ?_
    exact absurd (heq ▸ hbelow 0 hzero) (by decide +kernel)
  have hgreatest : (greatest? (widest.countedCosts widestOptions)).getD 0 = 1e308 := by
    refine (mem_countedCosts_widest.mp hhigh).resolve_left fun heq => ?_
    exact absurd (heq ▸ habove 1e308 hpad) (by decide +kernel)
  rw [CostMatrix.sentinelCost, sentinelOver, hleast, hgreatest]
  decide +kernel

end Widest

/-- The pad values that complete the row are too high for a sentinel, which is never computed. -/
theorem normalize_widest : widest.WellShaped ∧ Refuses widest widestOptions .costOverflow ∧
    FlatProblem.normalize widest widestOptions = .error (.faulted .oversized) := by
  have hvalid := isValid_widest
  refine ⟨hvalid.wellShaped, .costOverflow ⟨hvalid.rows_pos, hvalid.cols_pos⟩ ?_ ?_
    hvalid.padValue_isFinite ⟨hvalid.tolerance_isFinite, hvalid.tolerance_nonneg⟩
    isFinite_sentinelCost_widest, ?_⟩
  · intro row col cost hcell
    have hfinite := hvalid.data_isFinite cost (Array.mem_of_getElem? hcell.get?_eq)
    exact absurd (hfinite.symm.trans hcell.isFinite_eq) (by simp)
  · exact fun pair hpair => List.not_mem_nil hpair.mem
  · rw [FlatProblem.normalize_of_oversized (by decide) (by decide), hvalid.check_eq_ok]
    rfl

end Problem

end Hungarian
