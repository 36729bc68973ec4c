import Hungarian.Proofs.Potentials.Feasible
import Hungarian.Proofs.Problem.Normalize
import Hungarian.Proofs.Problem.Selection

/-!
# The sentinel outweighs the free cells

A forbidden cell costs so much that a permutation with fewer forbidden cells is cheaper by one at
least, whatever its other cells cost.
-/

namespace Hungarian.Problem

open CostArithmetic

variable {size : Nat} {problem : Problem ℚ size} {low high : ℚ} {σ τ : Equiv.Perm (Fin size)}

/-- The free cells cost from `low` to `high`, and the forbidden ones cost the sentinel over these
bounds. -/
structure SetsApart (problem : Problem ℚ size) (low high : ℚ) : Prop where
  low_le_high : low ≤ high
  low_le_cost : ∀ row col, problem.isForbidden row col = false → low ≤ problem.cost row col
  cost_le_high : ∀ row col, problem.isForbidden row col = false → problem.cost row col ≤ high
  cost_eq_sentinel : ∀ row col, problem.isForbidden row col →
    problem.cost row col = problem.sentinel
  sentinel_eq : problem.sentinel = high + size * (high - low) + 1

section Construction

variable {costs : Square ℚ size} {forbidden : Square Bool size} {row col : Fin size}

theorem least?_getD_le_greatest?_getD (costs : List ℚ) :
    (least? costs).getD 0 ≤ (greatest? costs).getD 0 := by
  by_cases hnil : costs = []
  · rw [hnil]
    exact le_refl _
  · exact least?_getD_le (greatest?_getD_mem hnil)

/-- The sentinel lies above the free costs by their spread times the side. -/
theorem exists_setsApart_of_ofSquare {rows cols : Nat} {epsilon : ℚ}
    (h : ofSquare rows cols costs forbidden epsilon = .ok problem) :
    ∃ low high, problem.SetsApart low high := by
  have hcost := cost_ofSquare h
  cases h
  refine ⟨_, _, least?_getD_le_greatest?_getD (freeCosts costs forbidden), ?_, ?_, ?_, rfl⟩
  · intro row col hfree
    rw [hcost, if_neg (by simp [hfree])]
    exact least?_getD_le (mem_freeCosts.mpr ⟨row, col, hfree, rfl⟩)
  · intro row col hfree
    rw [hcost, if_neg (by simp [hfree])]
    exact le_greatest?_getD (mem_freeCosts.mpr ⟨row, col, hfree, rfl⟩)
  · intro row col hforbidden
    rw [hcost, if_pos hforbidden]

end Construction

theorem sum_add_ite_forbidden (base extra : ℚ) :
    ∑ row, (base + if problem.isForbidden row (σ row) then extra else 0) =
      size * base + (problem.forbiddenRows σ).card * extra := by
  rw [Finset.sum_add_distrib, ← Finset.sum_filter, Finset.sum_const, Finset.sum_const,
    Finset.card_univ, Fintype.card_fin, nsmul_eq_mul, nsmul_eq_mul, forbiddenRows]

namespace SetsApart

variable (h : problem.SetsApart low high)

include h

theorem low_le_sentinel : low ≤ problem.sentinel := by
  have hspread : 0 ≤ (size : ℚ) * (high - low) :=
    mul_nonneg (Nat.cast_nonneg size) (sub_nonneg.mpr h.low_le_high)
  have hle := h.low_le_high
  rw [h.sentinel_eq]
  linarith

theorem le_totalCost : size * low + (problem.forbiddenRows σ).card * (problem.sentinel - low) ≤
    problem.totalCost σ := by
  rw [← sum_add_ite_forbidden]
  apply Finset.sum_le_sum
  intro row _
  by_cases hforbidden : problem.isForbidden row (σ row)
  · rw [if_pos hforbidden, h.cost_eq_sentinel row _ hforbidden]
    linarith
  · rw [if_neg hforbidden, add_zero]
    exact h.low_le_cost row _ (by simpa using hforbidden)

theorem totalCost_le : problem.totalCost σ ≤
    size * high + (problem.forbiddenRows σ).card * (problem.sentinel - high) := by
  rw [← sum_add_ite_forbidden]
  apply Finset.sum_le_sum
  intro row _
  by_cases hforbidden : problem.isForbidden row (σ row)
  · rw [if_pos hforbidden, h.cost_eq_sentinel row _ hforbidden]
    linarith
  · rw [if_neg hforbidden, add_zero]
    exact h.cost_le_high row _ (by simpa using hforbidden)

/-- Of two permutations the one with fewer forbidden cells is cheaper, by one at least. -/
theorem totalCost_add_one_le
    (hless : (problem.forbiddenRows τ).card < (problem.forbiddenRows σ).card) :
    problem.totalCost τ + 1 ≤ problem.totalCost σ := by
  have hmore : ((problem.forbiddenRows τ).card : ℚ) + 1 ≤ (problem.forbiddenRows σ).card := by
    exact_mod_cast hless
  have hspread : 0 ≤ (size : ℚ) * (high - low) :=
    mul_nonneg (Nat.cast_nonneg size) (sub_nonneg.mpr h.low_le_high)
  have hgap : 0 ≤ problem.sentinel - low := sub_nonneg.mpr h.low_le_sentinel
  have hfew : 0 ≤ ((problem.forbiddenRows τ).card : ℚ) * (high - low) :=
    mul_nonneg (Nat.cast_nonneg _) (sub_nonneg.mpr h.low_le_high)
  have hrise : ((problem.forbiddenRows τ).card + 1) * (problem.sentinel - low) ≤
      (problem.forbiddenRows σ).card * (problem.sentinel - low) :=
    mul_le_mul_of_nonneg_right hmore hgap
  have hle := h.low_le_high
  calc problem.totalCost τ + 1
      ≤ size * high + (problem.forbiddenRows τ).card * (problem.sentinel - high) + 1 := by
        have htotal : problem.totalCost τ ≤ _ := h.totalCost_le
        linarith
    _ ≤ size * low + ((problem.forbiddenRows τ).card + 1) * (problem.sentinel - low) := by
        have hsentinel := h.sentinel_eq
        linarith
    _ ≤ size * low + (problem.forbiddenRows σ).card * (problem.sentinel - low) := by linarith
    _ ≤ problem.totalCost σ := h.le_totalCost

end SetsApart

variable {matrix : CostMatrix ℚ} {options : Options ℚ} {problem : Problem ℚ matrix.side}
  {σ τ : Equiv.Perm (Fin matrix.side)}

theorem exists_setsApart_of_normalize (h : normalize matrix options = .ok problem) :
    ∃ low high, problem.SetsApart low high := by
  obtain ⟨padded, -, hsquare⟩ := exists_ofSquare_of_normalize h
  exact exists_setsApart_of_ofSquare hsquare

/-- **The sentinel dominates.** Whatever the costs, the pad value, the direction and the forbidden
pairs of the problem, of any two perfect matchings of its square the one with more forbidden cells
costs more, by one at least. -/
theorem totalCost_add_one_le_of_normalize (h : normalize matrix options = .ok problem)
    (hless : (problem.forbiddenRows τ).card < (problem.forbiddenRows σ).card) :
    problem.totalCost τ + 1 ≤ problem.totalCost σ := by
  obtain ⟨low, high, hapart⟩ := exists_setsApart_of_normalize h
  exact hapart.totalCost_add_one_le hless

def levelTable : CostMatrix ℚ where
  data := #[-3, -3]
  rows := 1
  cols := 2

def levelOptions : Options ℚ where
  maximize := true
  disallowed := .ofList [(0, .ofList [0])]
  padValue := -3
  tolerance := 0

/-- Where all free cells cost the same, the matching with the forbidden cell costs one more and no
more than that. -/
theorem totalCost_add_one_le_level : ∃ problem, normalize levelTable levelOptions = .ok problem ∧
    ∃ σ τ : Equiv.Perm (Fin levelTable.side),
      (problem.forbiddenRows τ).card < (problem.forbiddenRows σ).card ∧
      problem.totalCost σ = 1 ∧ problem.totalCost τ = 0 ∧
      problem.totalCost τ + 1 ≤ problem.totalCost σ := by
  let τ : Equiv.Perm (Fin 2) := Equiv.swap 0 1
  obtain ⟨problem, hproblem, hless, htotal, htotal'⟩ :
      ∃ problem, normalize levelTable levelOptions = .ok problem ∧
        (problem.forbiddenRows τ).card < (problem.forbiddenRows (Equiv.refl _)).card ∧
        problem.totalCost (Equiv.refl _) = 1 ∧ problem.totalCost τ = 0 := by
    refine ⟨_, rfl, ?_, ?_, ?_⟩
    · decide +kernel
    · decide +kernel
    · decide +kernel
  exact ⟨problem, hproblem, Equiv.refl _, τ, hless, htotal, htotal',
    totalCost_add_one_le_of_normalize hproblem hless⟩

end Hungarian.Problem
