import Hungarian.Proofs.Problem.Refusal
import Hungarian.Proofs.Problem.Sentinel

/-!
# Normalization over exact numbers

A matrix of exact costs is normalized whenever its shape and its options are sound, and a free cell
of the problem costs what it costs in the matrix, up to a sign and a shift that are the same for all
cells.
-/

namespace Hungarian

open CostArithmetic

def Options.sign (options : Options ℚ) : ℚ :=
  if options.maximize then -1 else 1

theorem Options.sign_ne_zero (options : Options ℚ) : options.sign ≠ 0 := by
  rw [sign]
  split
  · exact neg_ne_zero.mpr one_ne_zero
  · exact one_ne_zero

namespace CostMatrix

def costAt (matrix : CostMatrix ℚ) (cell : Nat × Nat) : ℚ :=
  (matrix.get? cell.1 cell.2).getD 0

structure Accepts (matrix : CostMatrix ℚ) (options : Options ℚ) : Prop where
  wellShaped : matrix.WellShaped
  rows_pos : 0 < matrix.rows
  cols_pos : 0 < matrix.cols
  inside : ∀ pair ∈ options.disallowed.toList, pair.1 < matrix.rows ∧ pair.2 < matrix.cols
  tolerance_nonneg : 0 ≤ options.tolerance

variable {matrix : CostMatrix ℚ} {options : Options ℚ} {row col : Nat}

theorem get?_eq_some_costAt (h : matrix.WellShaped) (hrow : row < matrix.rows)
    (hcol : col < matrix.cols) : matrix.get? row col = some (matrix.costAt (row, col)) := by
  obtain ⟨cost, hget⟩ := exists_get?_eq_some h hrow hcol
  rw [costAt, hget, Option.getD_some]

theorem gridCost_of_inside (h : matrix.WellShaped) (padValue : ℚ) (hrow : row < matrix.rows)
    (hcol : col < matrix.cols) : matrix.gridCost padValue row col = matrix.costAt (row, col) := by
  rw [gridCost, if_pos ⟨hrow, hcol⟩, get?_eq_some_costAt h hrow hcol, Option.getD_some]

theorem Accepts.contains_inside (h : matrix.Accepts options)
    (hforbidden : options.disallowed.contains row col) : row < matrix.rows ∧ col < matrix.cols :=
  h.inside (row, col) (ForbiddenPairs.contains_iff.mp hforbidden)

theorem Accepts.isValid (h : matrix.Accepts options) : matrix.IsValid options where
  wellShaped := h.wellShaped
  rows_pos := h.rows_pos
  cols_pos := h.cols_pos
  inside := h.inside
  data_isFinite := fun _ _ => rfl
  padValue_isFinite := rfl
  tolerance_isFinite := rfl
  tolerance_nonneg := not_lt.mpr h.tolerance_nonneg

/-- Without forbidden pairs, only the sides and the tolerance can be refused. -/
theorem accepts_iff_of_free (hshaped : matrix.WellShaped)
    (hfree : options.disallowed.toList = []) : matrix.Accepts options ↔
      (0 < matrix.rows ∧ 0 < matrix.cols) ∧ 0 ≤ options.tolerance := by
  constructor
  · intro h
    exact ⟨⟨h.rows_pos, h.cols_pos⟩, h.tolerance_nonneg⟩
  · rintro ⟨⟨hrows, hcols⟩, htolerance⟩
    refine ⟨hshaped, hrows, hcols, ?_, htolerance⟩
    rw [hfree]
    exact fun _ hpair => absurd hpair List.not_mem_nil

theorem gridCost_mem_group {group : AddSubgroup ℚ} {padValue : ℚ} (hpad : padValue ∈ group)
    (hdata : ∀ cost ∈ matrix.data, cost ∈ group) : matrix.gridCost padValue row col ∈ group := by
  by_cases hinside : row < matrix.rows ∧ col < matrix.cols
  · rw [gridCost, if_pos hinside]
    cases hget : matrix.get? row col with
    | none => exact hpad
    | some cost => exact hdata cost (Array.mem_of_getElem? hget)
  · rw [gridCost_of_outside hinside]
    exact hpad

end CostMatrix

namespace Problem

section Square

variable {size : Nat} {costs : Square ℚ size} {group : AddSubgroup ℚ}

/-- A cost is counted from the greatest one, or from zero. -/
theorem exists_shift (options : Options ℚ) (costs : Square ℚ size) : ∃ shift,
    (∀ group : AddSubgroup ℚ, (∀ row col, costs.get row col ∈ group) → shift ∈ group) ∧
    ∀ row col, (transformed options costs).get row col =
      shift + options.sign * costs.get row col := by
  by_cases hmaximize : options.maximize
  · refine ⟨(greatest? costs.toList).getD 0, ?_, ?_⟩
    · intro group hgroup
      apply greatest?_getD_mem_group
      intro cost hcost
      obtain ⟨row, col, rfl⟩ := Square.mem_toList.mp hcost
      exact hgroup row col
    · intro row col
      rw [transformed, if_pos hmaximize, Options.sign, if_pos hmaximize, complement,
        Square.get_ofFn]
      ring
  · refine ⟨0, fun group _ => group.zero_mem, ?_⟩
    intro row col
    rw [transformed, if_neg hmaximize, Options.sign, if_neg hmaximize]
    ring

theorem cost_mem_group_of_ofSquare {forbidden : Square Bool size} {rows cols : Nat} {epsilon : ℚ}
    {problem : Problem ℚ size} (h : ofSquare rows cols costs forbidden epsilon = .ok problem)
    (hone : 1 ∈ group) (hcosts : ∀ row col, costs.get row col ∈ group) (row col : Fin size) :
    problem.cost row col ∈ group := by
  have hfree : ∀ cost ∈ freeCosts costs forbidden, cost ∈ group := by
    intro cost hcost
    obtain ⟨row, col, -, rfl⟩ := mem_freeCosts.mp hcost
    exact hcosts row col
  have hlow := least?_getD_mem_group hfree
  have hhigh := greatest?_getD_mem_group hfree
  have hspread := group.nsmul_mem (group.sub_mem hhigh hlow) size
  rw [nsmul_eq_mul] at hspread
  have hsentinel : problem.sentinel ∈ group := by
    cases h
    exact group.add_mem (group.add_mem hhigh hspread) hone
  rw [cost_ofSquare h]
  split
  · exact hsentinel
  · exact hcosts row col

end Square

variable {matrix : CostMatrix ℚ} {options : Options ℚ}

/-- A problem with the costs of a matrix: free cells keep theirs up to a sign and a shift, and
forbidden ones, none of them padding, are set apart. -/
structure Represents (matrix : CostMatrix ℚ) (options : Options ℚ)
    (problem : Problem ℚ matrix.side) : Prop where
  wellShaped : matrix.WellShaped
  frames : problem.Frames matrix options
  forbidden_inside : ∀ row col, problem.isForbidden row col → problem.isPadding row col = false
  setsApart : ∃ low high, problem.SetsApart low high
  shifts : ∃ shift, ∀ row col, problem.isForbidden row col = false →
    problem.cost row col = shift + options.sign * matrix.gridCost options.padValue row col
  cost_mem_group : ∀ group : AddSubgroup ℚ, 1 ∈ group → options.padValue ∈ group →
    (∀ cost ∈ matrix.data, cost ∈ group) → ∀ row col, problem.cost row col ∈ group

theorem exists_normalize_eq_ok (h : matrix.Accepts options) :
    ∃ problem, normalize matrix options = .ok problem := by
  rw [h.isValid.normalize_eq (CostMatrix.padded_eq_ok h.wellShaped options.padValue)]
  exact ⟨_, rfl⟩

theorem accepts_of_normalize (hshaped : matrix.WellShaped) {problem : Problem ℚ matrix.side}
    (h : normalize matrix options = .ok problem) : matrix.Accepts options := by
  obtain ⟨⟨hrows, hcols⟩, -, hvalidate⟩ := check_eq_ok_iff.mp (check_of_normalize h)
  obtain ⟨hinside, -, -, htolerance⟩ := Options.validate_eq_ok_iff.mp hvalidate
  exact ⟨hshaped, hrows, hcols, hinside, not_lt.mp htolerance⟩

/-- Without forbidden pairs, exact costs are refused only when there are none or when the tolerance
is negative. -/
theorem normalize_eq_error (hshaped : matrix.WellShaped) (hfree : options.disallowed.toList = [])
    (h : ¬matrix.Accepts options) : normalize matrix options = .error (.refused
      (if matrix.isEmpty then .emptyMatrix else .invalidTolerance options.tolerance)) := by
  by_cases hempty : matrix.isEmpty
  · rw [if_pos hempty]
    apply normalize_eq_error_of_refuses hshaped
    exact .emptyMatrix (by simpa [CostMatrix.isEmpty] using hempty)
  · have hsides := CostMatrix.not_isEmpty_iff.mp hempty
    have hnegative : options.tolerance < 0 := by
      by_contra hnonneg
      exact h ((CostMatrix.accepts_iff_of_free hshaped hfree).mpr ⟨hsides, not_lt.mp hnonneg⟩)
    have hcosts : ∀ row col cost, ¬matrix.IsUnsoundAt row col cost := fun row col cost hcell =>
      absurd hcell.isFinite_eq.symm Bool.false_ne_true
    have hinside : ∀ pair, ¬matrix.IsOutside options pair := by
      intro pair hpair
      have hmem := hpair.mem
      rw [hfree] at hmem
      exact List.not_mem_nil hmem
    rw [if_neg hempty]
    apply normalize_eq_error_of_refuses hshaped
    exact .invalidTolerance hsides hcosts hinside rfl (.inr hnegative)

theorem represents_of_normalize (h : matrix.Accepts options) {problem : Problem ℚ matrix.side}
    (hproblem : normalize matrix options = .ok problem) : problem.Represents matrix options := by
  have hframes := frames_of_normalize hproblem
  obtain ⟨padded, hpadded, hsquare⟩ := exists_ofSquare_of_normalize hproblem
  have hget : ∀ row col, padded.get row col = matrix.gridCost options.padValue row col := by
    intro row col
    rw [CostMatrix.padded_eq_ok h.wellShaped, Except.ok.injEq] at hpadded
    rw [← hpadded, CostMatrix.grid, Square.get_ofFn]
  obtain ⟨shift, hshift, hcosts⟩ := exists_shift options padded
  refine ⟨h.wellShaped, hframes, ?_, exists_setsApart_of_normalize hproblem, ⟨shift, ?_⟩, ?_⟩
  · intro row col hforbidden
    rw [hframes.isForbidden_eq] at hforbidden
    rw [isPadding_eq_false_iff, hframes.rows_eq, hframes.cols_eq]
    exact h.contains_inside hforbidden
  · intro row col hfree
    rw [cost_ofSquare hsquare, if_neg (by simp [hfree]), hcosts, hget]
  · intro group hone hpad hdata row col
    have hpaddedMem : ∀ row col, padded.get row col ∈ group := by
      intro row col
      rw [hget]
      exact CostMatrix.gridCost_mem_group hpad hdata
    apply cost_mem_group_of_ofSquare hsquare hone
    intro row col
    rw [hcosts]
    apply group.add_mem (hshift group hpaddedMem)
    rw [Options.sign]
    split
    · rw [neg_one_mul]
      exact group.neg_mem (hpaddedMem row col)
    · rw [one_mul]
      exact hpaddedMem row col

end Problem

end Hungarian
