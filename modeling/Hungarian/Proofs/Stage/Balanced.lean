import Hungarian.Proofs.Search.Balanced
import Hungarian.Proofs.Stage.Failure

/-!
# The final stage over exact numbers

All rows are matched, and the final potentials support the matching. So the matching costs at most
`epsilon` a row more than the cheapest permutation: a matched cell may exceed its two potentials by
`epsilon` at the time that it is matched, and no later move of the potentials adds to that.
-/

namespace Hungarian

namespace Potentials

variable {size : Nat} {problem : Problem ℚ size}

theorem supports_initial (problem : Problem ℚ size) :
    (initial problem).Supports problem (.empty size) where
  feasible := feasible_initial problem
  generated := generated_initial problem
  matched_near := by
    intro row col hmatched
    rw [Matching.colOf_empty] at hmatched
    exact absurd hmatched (by simp)

end Potentials

namespace Stage

variable {size : Nat} {problem : Problem ℚ size} {stage : Stage ℚ size}

structure Balanced (problem : Problem ℚ size) (count : Nat) (stage : Stage ℚ size) : Prop where
  consistent : stage.matching.Consistent
  supports : stage.state.potentials.Supports problem stage.matching
  matched_iff : ∀ row : Fin size, (stage.matching.colOf row).isSome ↔ row < count

theorem balanced_initial (problem : Problem ℚ size) : (initial problem).Balanced problem 0 where
  consistent := Matching.consistent_empty
  supports := Potentials.supports_initial problem
  matched_iff := by
    intro row
    have hfree : (initial problem).matching.colOf row = none := Matching.colOf_empty row
    simp [hfree]

/-- A search keeps a stage balanced. -/
theorem Balanced.of_run (hnonneg : 0 ≤ problem.epsilon) {row : Fin size}
    (h : stage.Balanced problem row) {last : Search.State ℚ size} {path : Path size}
    (hrun : Search.run problem stage.matching stage.state row = (last, .ok path))
    (searches : List (RowSearch ℚ size)) : Balanced problem (row + 1)
      { matching := stage.matching.augment path, state := last, searches } where
  consistent := (Search.augments_of_run hrun).1.consistent_augment h.consistent
  supports := Search.supports_of_run hnonneg h.consistent h.supports hrun
  matched_iff := by
    intro other
    obtain ⟨haugments, hhead⟩ := Search.augments_of_run hrun
    rw [haugments.isSome_colOf_augment_iff hhead, h.matched_iff, Fin.ext_iff]
    omega

theorem Reached.balanced (hnonneg : 0 ≤ problem.epsilon) {count : Nat}
    (h : Reached problem count stage) : stage.Balanced problem count := by
  induction h with
  | initial => exact balanced_initial problem
  | matchRow _ hmatch ih =>
      obtain ⟨last, path, hrun, -, rfl⟩ := matchRow_eq_ok_iff.mp hmatch
      exact ih.of_run hnonneg hrun _

/-- A run over exact numbers matches every row. -/
theorem exists_final_eq_ok (hnonneg : 0 ≤ problem.epsilon) :
    ∃ stage, final problem = (stage, .ok ()) ∧ stage.Balanced problem size := by
  rcases final_cases_of_progresses (Search.progresses hnonneg) with
    ⟨last, hfinal, hlast⟩ | ⟨-, stage, row, col, -, hcol⟩
  · exact ⟨last, hfinal, hlast.balanced hnonneg⟩
  · rw [CostArithmetic.belowCeiling_exact] at hcol
    exact absurd hcol (by simp)

section Gap

variable {count : Nat} {σ : Equiv.Perm (Fin size)} (h : stage.Balanced problem count)

include h

theorem Balanced.dualObjective_le (τ : Equiv.Perm (Fin size)) :
    stage.solution.potentials.dualObjective ≤ problem.totalCost τ :=
  h.supports.feasible.dualObjective_le_totalCost

/-- Each matched cell costs at most the tolerance beyond its two potentials. -/
theorem Balanced.totalCost_le_add (hσ : stage.matching.Realizes σ) : problem.totalCost σ ≤
    stage.solution.potentials.dualObjective + size * problem.epsilon :=
  Potentials.totalCost_le_dualObjective_add fun row =>
    h.supports.matched_near row (σ row) (hσ.colOf_eq row)

theorem Balanced.totalCost_le_totalCost_add (hσ : stage.matching.Realizes σ)
    (τ : Equiv.Perm (Fin size)) :
    problem.totalCost σ ≤ problem.totalCost τ + size * problem.epsilon := by
  have hlow := h.dualObjective_le τ
  have hhigh := h.totalCost_le_add hσ
  linarith

/-- Where the costs are multiples of a unit and the tolerance is less than it, the matched cells
cost exactly what their potentials say. -/
theorem Balanced.totalCost_eq_of_unit (hσ : stage.matching.Realizes σ) {unit : ℚ}
    (hunit : 0 < unit) (hcosts : ∀ row col, problem.cost row col ∈ AddSubgroup.zmultiples unit)
    (htolerance : problem.epsilon < unit) :
    problem.totalCost σ = stage.solution.potentials.dualObjective := by
  have hmatched : ∀ row,
      stage.solution.potentials.reducedCost problem row (σ row) = 0 := by
    intro row
    have hmem := h.supports.generated.reducedCost_mem hcosts row (σ row)
    have hnear := h.supports.matched_near row (σ row) (hσ.colOf_eq row)
    exact CostArithmetic.eq_zero_of_mem_zmultiples hunit hmem (h.supports.feasible row (σ row))
      (hnear.trans_lt htolerance)
  rw [Potentials.totalCost_eq_dualObjective_add stage.solution.potentials,
    Finset.sum_eq_zero fun row _ => hmatched row, add_zero]

/-- Where the totals are multiples of a unit, less than one unit too much is nothing. -/
theorem Balanced.totalCost_le_of_unit (hσ : stage.matching.Realizes σ) {unit : ℚ}
    (hunit : 0 < unit) (hcosts : ∀ row col, problem.cost row col ∈ AddSubgroup.zmultiples unit)
    (htolerance : problem.epsilon < unit) (τ : Equiv.Perm (Fin size)) :
    problem.totalCost σ ≤ problem.totalCost τ := by
  rw [h.totalCost_eq_of_unit hσ hunit hcosts htolerance]
  exact h.dualObjective_le τ

end Gap

/-- **The primal-dual bound.** Every problem with exact costs is matched throughout, whatever its
tolerance, and the potentials at the end tell how far from the optimum the matching can be. -/
theorem exists_final_within_gap (problem : Problem ℚ size) (hnonneg : 0 ≤ problem.epsilon) :
    ∃ stage σ, final problem = (stage, .ok ()) ∧ stage.matching.Realizes σ ∧
      (∀ τ, stage.solution.potentials.dualObjective ≤ problem.totalCost τ) ∧
      problem.totalCost σ ≤
        stage.solution.potentials.dualObjective + size * problem.epsilon ∧
      ∀ τ, problem.totalCost σ ≤ problem.totalCost τ + size * problem.epsilon := by
  obtain ⟨stage, hfinal, hbalanced⟩ := exists_final_eq_ok hnonneg
  obtain ⟨σ, hσ⟩ := exists_realizes_of_final hfinal
  refine ⟨stage, σ, hfinal, hσ, ?_, ?_, ?_⟩
  · intro τ
    exact hbalanced.dualObjective_le τ
  · exact hbalanced.totalCost_le_add hσ
  · intro τ
    exact hbalanced.totalCost_le_totalCost_add hσ τ

def productProblem : Problem ℚ 3 where
  rows := 3
  cols := 3
  costs := .ofFn fun row col => (row + 1) * (col + 1)
  forbidden := .ofFn fun _ _ => false
  sentinel := 34
  epsilon := 1

/-- The matching costs 10 and its potentials sum up to 9, so that the gap is not empty. -/
theorem exists_final_productProblem : 0 ≤ productProblem.epsilon ∧
    (final productProblem).1.matching.pairs = [(0, 2), (1, 1), (2, 0)] ∧
    (final productProblem).1.solution.potentials.dualObjective = 9 ∧
    ∃ stage σ, final productProblem = (stage, .ok ()) ∧ stage.matching.Realizes σ ∧
      (∀ τ, stage.solution.potentials.dualObjective ≤ productProblem.totalCost τ) ∧
      productProblem.totalCost σ ≤
        stage.solution.potentials.dualObjective + (3 : Nat) * productProblem.epsilon ∧
      ∀ τ, productProblem.totalCost σ ≤
        productProblem.totalCost τ + (3 : Nat) * productProblem.epsilon := by
  have hnonneg : 0 ≤ productProblem.epsilon := by decide +kernel
  refine ⟨hnonneg, ?_, ?_, exists_final_within_gap productProblem hnonneg⟩
  · decide +kernel
  · decide +kernel

end Stage

end Hungarian
