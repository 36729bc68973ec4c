import Hungarian.Proofs.Integral.Potentials
import Hungarian.Proofs.Problem.Exact

/-!
# Whole numbers in a problem

How large the costs of a problem are when those of its matrix are whole numbers up to a bound. The
sentinel is the largest of them; it is above the others by as much as these can add up to.
-/

namespace Hungarian

open CostArithmetic

def IsCountWithin (low width : ℤ) (number : ℚ) : Prop :=
  ∃ count : ℤ, number = count ∧ low ≤ count ∧ count ≤ low + width

def Options.floor (options : Options ℚ) (bound : Nat) : ℤ :=
  if options.maximize then 0 else -bound

theorem Options.floor_cases (options : Options ℚ) (bound : Nat) :
    options.floor bound = 0 ∨ options.floor bound = -bound := by
  rw [floor]
  split
  · exact .inl rfl
  · exact .inr rfl

namespace CostMatrix

/-- A matrix and a pad value of whole numbers up to a bound, with a tolerance of less than one. As
many of the costs of its problem as there are potentials add up to 53 bits. -/
structure IsIntegral (matrix : CostMatrix ℚ) (options : Options ℚ) (bound : Nat) : Prop
    extends matrix.Accepts options where
  isCount_data : ∀ cost ∈ matrix.data, IsCount bound cost
  isCount_padValue : IsCount bound options.padValue
  bound_le : 2 * matrix.side * (2 * (matrix.side + 1) * bound + 1) ≤ 2 ^ 53
  tolerance_lt_one : options.tolerance < 1

variable {matrix : CostMatrix ℚ} {options : Options ℚ} {bound : Nat}

theorem isCountWithin_of_isCount {number : ℚ} (h : IsCount bound number) :
    IsCountWithin (-bound) (2 * bound) number := by
  obtain ⟨count, hcount, habs⟩ := h
  rw [abs_le] at habs
  exact ⟨count, hcount, habs.1, by omega⟩

theorem IsIntegral.isCountWithin_gridCost (h : matrix.IsIntegral options bound) (row col : Nat) :
    IsCountWithin (-bound) (2 * bound) (matrix.gridCost options.padValue row col) := by
  apply isCountWithin_of_isCount
  by_cases hinside : row < matrix.rows ∧ col < matrix.cols
  · have hget := get?_eq_some_gridCost h.wellShaped options.padValue hinside.1 hinside.2
    exact h.isCount_data _ (Array.mem_of_getElem? hget)
  · rw [gridCost_of_outside hinside]
    exact h.isCount_padValue

end CostMatrix

namespace Problem

variable {size : Nat} {low width : ℤ}

section Sentinel

variable {costs : List ℚ} (hcosts : ∀ cost ∈ costs, IsCountWithin low width cost)
  (hlow : low ≤ 0) (hhigh : 0 ≤ low + width)

include hcosts hlow hhigh

theorem isCountWithin_least : IsCountWithin low width ((least? costs).getD 0) := by
  by_cases hnil : costs = []
  · rw [hnil]
    exact ⟨0, by simp [least?], hlow, hhigh⟩
  · exact hcosts _ (least?_getD_mem hnil)

theorem isCountWithin_greatest : IsCountWithin low width ((greatest? costs).getD 0) := by
  by_cases hnil : costs = []
  · rw [hnil]
    exact ⟨0, by simp [greatest?], hlow, hhigh⟩
  · exact hcosts _ (greatest?_getD_mem hnil)

theorem isCountWithin_spread :
    IsCountWithin 0 width ((greatest? costs).getD 0 - (least? costs).getD 0) := by
  obtain ⟨least, hleast, hleast', -⟩ := isCountWithin_least hcosts hlow hhigh
  obtain ⟨greatest, hgreatest, -, hgreatest'⟩ := isCountWithin_greatest hcosts hlow hhigh
  have hle := least?_getD_le_greatest?_getD costs
  rw [hleast, hgreatest, Int.cast_le] at hle
  exact ⟨greatest - least, by rw [hleast, hgreatest, Int.cast_sub], by omega, by omega⟩

theorem isCountWithin_weightedSpread (size : Nat) : IsCountWithin 0 (size * width)
    (ofCount size * ((greatest? costs).getD 0 - (least? costs).getD 0)) := by
  obtain ⟨count, hcount, hnonneg, hle⟩ := isCountWithin_spread hcosts hlow hhigh
  refine ⟨size * count, ?_, by positivity, ?_⟩
  · rw [hcount, Int.cast_mul]
    rfl
  · rw [zero_add] at hle ⊢
    exact mul_le_mul_of_nonneg_left hle (Int.natCast_nonneg size)

theorem isCountWithin_raised (size : Nat) : IsCountWithin low (width + size * width)
    ((greatest? costs).getD 0 +
      ofCount size * ((greatest? costs).getD 0 - (least? costs).getD 0)) := by
  obtain ⟨greatest, hgreatest, hlow', hhigh'⟩ := isCountWithin_greatest hcosts hlow hhigh
  obtain ⟨weighted, hweighted, hnonneg, hle⟩ := isCountWithin_weightedSpread hcosts hlow hhigh size
  refine ⟨greatest + weighted, ?_, by omega, by omega⟩
  rw [Int.cast_add]
  exact congrArg₂ (· + ·) hgreatest hweighted

theorem isCountWithin_sentinel (size : Nat) :
    IsCountWithin low (width + size * width + 1) (sentinelOver size costs) := by
  obtain ⟨raised, hraised, hlow', hhigh'⟩ := isCountWithin_raised hcosts hlow hhigh size
  refine ⟨raised + 1, ?_, by omega, by omega⟩
  rw [Int.cast_add, Int.cast_one, ← hraised]
  rfl

end Sentinel

section Transformed

variable {costs : Square ℚ size} {options : Options ℚ} {bound : Nat}

theorem isCountWithin_complement
    (hcosts : ∀ row col, IsCountWithin low width (costs.get row col)) (row col : Fin size) :
    IsCountWithin 0 width ((complement costs).get row col) := by
  have hmem : costs.get row col ∈ costs.toList := Square.mem_toList.mpr ⟨row, col, rfl⟩
  have htop : IsCountWithin low width ((greatest? costs.toList).getD 0) := by
    obtain ⟨row, col, heq⟩ :=
      Square.mem_toList.mp (greatest?_getD_mem (List.ne_nil_of_mem hmem))
    rw [← heq]
    exact hcosts row col
  obtain ⟨top, htop, -, hhigh⟩ := htop
  obtain ⟨count, hcount, hlow, -⟩ := hcosts row col
  have hle := le_greatest?_getD hmem
  rw [htop, hcount, Int.cast_le] at hle
  refine ⟨top - count, ?_, by omega, by omega⟩
  rw [complement, Square.get_ofFn, htop, hcount, Int.cast_sub]

theorem isCountWithin_transformed
    (hcosts : ∀ row col, IsCountWithin (-bound) (2 * bound) (costs.get row col))
    (row col : Fin size) :
    IsCountWithin (options.floor bound) (2 * bound) ((transformed options costs).get row col) := by
  rw [transformed, Options.floor]
  split
  · exact isCountWithin_complement hcosts row col
  · exact hcosts row col

end Transformed

end Problem

namespace CostMatrix.IsIntegral

open Problem

variable {matrix : CostMatrix ℚ} {options : Options ℚ} {bound : Nat}
  (h : matrix.IsIntegral options bound)

include h

theorem side_pos : 0 < matrix.side :=
  h.rows_pos.trans_le (le_max_left _ _)

/-- All numbers up to the sentinel have 53 bits. -/
theorem isSmall_of_isCountWithin {low width : ℤ} {number : ℚ} (hnumber : IsCountWithin low width number)
    (hlow : -(bound : ℤ) ≤ low) (hhigh : low + width ≤ 2 * bound + matrix.side * (2 * bound) + 1) :
    IsSmall number := by
  obtain ⟨count, hcount, hlow', hhigh'⟩ := hnumber
  have hbound : 2 * ((2 : ℤ) * bound + matrix.side * (2 * bound) + 1) ≤ 2 ^ 53 := by
    have hside : 1 ≤ matrix.side := h.side_pos
    have hle : 2 * 1 * (2 * (matrix.side + 1) * bound + 1) ≤
        2 * matrix.side * (2 * (matrix.side + 1) * bound + 1) :=
      Nat.mul_le_mul_right _ (by omega)
    have htotal := hle.trans h.bound_le
    zify at htotal
    linarith
  have hnonneg : (0 : ℤ) ≤ matrix.side * (2 * bound) := by positivity
  exact ⟨count, hcount, abs_le.mpr ⟨by omega, by omega⟩⟩

section Padded

variable {padded : Square ℚ matrix.side} (hpadded : matrix.padded options.padValue = .ok padded)

include hpadded

theorem isCountWithin_padded (row col : Fin matrix.side) :
    IsCountWithin (-bound) (2 * bound) (padded.get row col) := by
  rw [padded_eq_ok h.wellShaped, Except.ok.injEq] at hpadded
  rw [← hpadded, grid, Square.get_ofFn]
  exact h.isCountWithin_gridCost row col

theorem isCountWithin_transformed (row col : Fin matrix.side) :
    IsCountWithin (options.floor bound) (2 * bound) ((transformed options padded).get row col) :=
  Problem.isCountWithin_transformed (h.isCountWithin_padded hpadded) row col

theorem isCountWithin_of_mem_freeCosts {forbidden : Square Bool matrix.side} {cost : ℚ}
    (hcost : cost ∈ freeCosts (transformed options padded) forbidden) :
    IsCountWithin (options.floor bound) (2 * bound) cost := by
  obtain ⟨row, col, -, rfl⟩ := mem_freeCosts.mp hcost
  exact h.isCountWithin_transformed hpadded row col

end Padded

/-- The sentinel is a whole number too, above the costs by their spread times the side. -/
theorem isIntegral_of_normalize {problem : Problem ℚ matrix.side}
    (hproblem : normalize matrix options = .ok problem) :
    problem.IsIntegral (options.floor bound) (2 * bound + matrix.side * (2 * bound) + 1) := by
  have hframes := frames_of_normalize hproblem
  obtain ⟨padded, hpadded, hsquare⟩ := exists_ofSquare_of_normalize hproblem
  have hfloor := options.floor_cases bound
  have hsentinel : IsCountWithin (options.floor bound)
      (2 * bound + matrix.side * (2 * bound) + 1) problem.sentinel := by
    cases hsquare
    exact isCountWithin_sentinel (fun cost => h.isCountWithin_of_mem_freeCosts hpadded)
      (by omega) (by omega) matrix.side
  have hnonneg : (0 : ℤ) ≤ matrix.side * (2 * bound) := by positivity
  have hcost : ∀ row col, IsCountWithin (options.floor bound)
      (2 * bound + matrix.side * (2 * bound) + 1) (problem.cost row col) := by
    intro row col
    rw [cost_ofSquare hsquare]
    split
    · exact hsentinel
    · obtain ⟨count, hcount, hlow, hhigh⟩ := h.isCountWithin_transformed hpadded row col
      exact ⟨count, hcount, hlow, by omega⟩
  refine ⟨?_, ?_, by omega, by omega, ?_, ?_, ?_⟩
  · intro row col
    obtain ⟨count, hcount, -⟩ := hcost row col
    exact ⟨count, hcount⟩
  · intro row col
    obtain ⟨count, hcount, hlow, hhigh⟩ := hcost row col
    rw [hcount]
    exact ⟨by exact_mod_cast hlow, by exact_mod_cast hhigh⟩
  · have hbound := h.bound_le
    zify at hbound
    linarith
  · rw [hframes.epsilon_eq]
    exact h.tolerance_nonneg
  · rw [hframes.epsilon_eq]
    exact h.tolerance_lt_one

end CostMatrix.IsIntegral

end Hungarian
