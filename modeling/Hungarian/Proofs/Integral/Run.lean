import Hungarian.Proofs.Integral.Problem
import Hungarian.Proofs.Optimum.Answer

/-!
# Whole numbers in a run

The potentials stay in the range of the costs and the slacks are reduced costs, so that no number of
a run takes more than 53 bits; nor do the sums at its end.
-/

namespace Hungarian

open CostArithmetic

variable {size : Nat} {problem : Problem ℚ size} {matching : Matching size} {low spread : ℤ}

namespace Stage

variable {stage : Stage ℚ size} {root? : Option (Fin size)} {root row col : Fin size}
  {state last : Search.State ℚ size} (hproblem : problem.IsIntegral low spread)

include hproblem

theorem isIntegral_of_visits (h : Visits problem matching root? state) :
    state.potentials.IsIntegral problem low spread where
  feasible := (supports_of_visits hproblem.epsilon_nonneg h).feasible
  generated := (supports_of_visits hproblem.epsilon_nonneg h).generated
  inRange := inRange_of_visits hproblem.epsilon_nonneg hproblem.within h

section Search

variable (hstage : Reached problem row stage)

include hstage

theorem isIntegral_of_passes
    (h : Search.Passes problem stage.matching (stage.state.plant problem row) state) :
    state.potentials.IsIntegral problem low spread :=
  isIntegral_of_visits hproblem (.search hstage h)

/-- A slack is a reduced cost of its time; that of a column outside is one of now, and may have
come about by a move. -/
theorem isSmall_slack_of_passes
    (h : Search.Passes problem stage.matching (stage.state.plant problem row) state)
    (col : Fin size) : IsSmall (state.tree.slack.get col) := by
  induction h with
  | start =>
      have hplant : (stage.state.plant problem row).tree.slack.get col =
          stage.state.potentials.reducedCost problem row col := Tree.slack_plant ..
      rw [hplant]
      exact (isIntegral_of_passes hproblem hstage .start).isSmall_reducedCost hproblem row col
  | @grow state next hstate hadvance ih =>
      have hnext := hstate.grow hadvance
      have hintegral := isIntegral_of_passes hproblem hstage hnext
      have hbalanced := hstage.balanced_of_steps hproblem.epsilon_nonneg hnext.steps
      cases Search.step_of_advance hadvance with
      | @tighten closest =>
          cases hcol : state.tree.cols.get col with
          | true =>
              have hkept : (state.tighten (state.tree.slack.get closest)).tree.slack.get col =
                  state.tree.slack.get col := by
                refine (Tree.slack_tighten _ _ col).trans ?_
                rw [hcol, if_pos rfl]
              rw [hkept]
              exact ih
          | false =>
              rw [hbalanced.slack_eq col hcol]
              exact hintegral.isSmall_reducedCost hproblem _ col
      | @join reached joined =>
          have hslack := Tree.slack_enter problem state.potentials (state.reach reached).tree joined col
          split at hslack
          · exact hslack ▸ hintegral.isSmall_reducedCost hproblem joined col
          · exact hslack ▸ ih

theorem isSmall_of_mem_deltas_of_passes
    (h : Search.Passes problem stage.matching (stage.state.plant problem row) state) {delta : ℚ}
    (hdelta : delta ∈ state.tree.deltas) : IsSmall delta := by
  induction h with
  | start => exact absurd hdelta List.not_mem_nil
  | @grow state next hstate hadvance ih =>
      cases Search.step_of_advance hadvance with
      | @tighten closest =>
          replace hdelta : delta ∈ (state.tree.tighten (state.tree.slack.get closest)).deltas :=
            hdelta
          rw [Tree.deltas_tighten, List.mem_append, List.mem_singleton] at hdelta
          rcases hdelta with hold | rfl
          · exact ih hold
          · exact isSmall_slack_of_passes hproblem hstage hstate closest
      | @join reached joined =>
          replace hdelta : delta ∈ (state.tree.reach reached).deltas := hdelta
          rw [Tree.deltas_reach] at hdelta
          exact ih hdelta

end Search

theorem isSmall_slack_of_visits (h : Visits problem matching (some root) state) (col : Fin size) :
    IsSmall (state.tree.slack.get col) := by
  cases h with
  | search hstage hpasses => exact isSmall_slack_of_passes hproblem hstage hpasses col
  | arrival hstage hpasses hadvance =>
      rw [(Search.arrives_of_advance hadvance).last_eq]
      exact isSmall_slack_of_passes hproblem hstage hpasses col

theorem isSmall_of_mem_deltas_of_visits (h : Visits problem matching (some root) state) {delta : ℚ}
    (hdelta : delta ∈ state.tree.deltas) : IsSmall delta := by
  cases h with
  | search hstage hpasses =>
      exact isSmall_of_mem_deltas_of_passes hproblem hstage hpasses hdelta
  | @arrival stage row col state last hstage hpasses hadvance =>
      rw [(Search.arrives_of_advance hadvance).last_eq] at hdelta
      replace hdelta : delta ∈ (state.tree.reach col).deltas := hdelta
      rw [Tree.deltas_reach] at hdelta
      exact isSmall_of_mem_deltas_of_passes hproblem hstage hpasses hdelta

end Stage

theorem Solution.length_kept_le {α : Type} (solution : Solution α size)
    (problem : Problem α size) : (solution.kept problem).length ≤ size :=
  calc (solution.kept problem).length ≤ solution.matching.pairs.length := List.length_filter_le _ _
    _ ≤ (List.finRange size).length := List.length_filterMap_le _ _
    _ = size := List.length_finRange

inductive Problem.Prices (size : Nat) (costs : List ℚ) : ℚ → Prop
  | spread : Prices size costs ((greatest? costs).getD 0 - (least? costs).getD 0)
  | weightedSpread : Prices size costs
      (ofCount size * ((greatest? costs).getD 0 - (least? costs).getD 0))
  | raised : Prices size costs ((greatest? costs).getD 0 +
      ofCount size * ((greatest? costs).getD 0 - (least? costs).getD 0))
  | sentinel : Prices size costs (sentinelOver size costs)

inductive Potentials.Counts (problem : Problem ℚ size) (potentials : Potentials ℚ size) : ℚ → Prop
  | row (row : Fin size) : Counts problem potentials (potentials.rows.get row)
  | col (col : Fin size) : Counts problem potentials (potentials.cols.get col)
  | beyondRow (row col : Fin size) :
      Counts problem potentials (problem.cost row col - potentials.rows.get row)
  | reducedCost (row col : Fin size) :
      Counts problem potentials (potentials.reducedCost problem row col)
  | rowSum (count : Nat) : Counts problem potentials (total (potentials.rows.toList.take count))
  | colSum (count : Nat) : Counts problem potentials (total (potentials.cols.toList.take count))
  | dualObjective : Counts problem potentials potentials.dualObjective

/-- The numbers that a solve computes on its way to an answer. -/
inductive Computes (matrix : CostMatrix ℚ) (options : Options ℚ) : ℚ → Prop
  | transformed {padded : Square ℚ matrix.side}
      (hpadded : matrix.padded options.padValue = .ok padded) (row col : Fin matrix.side) :
      Computes matrix options ((Problem.transformed options padded).get row col)
  | sentinel {padded : Square ℚ matrix.side} {number : ℚ}
      (hpadded : matrix.padded options.padValue = .ok padded)
      (hnumber : Problem.Prices matrix.side (Problem.freeCosts
        (Problem.transformed options padded) (options.disallowed.mask matrix.side)) number) :
      Computes matrix options number
  | cost {problem : Problem ℚ matrix.side}
      (hproblem : Problem.normalize matrix options = .ok problem) (row col : Fin matrix.side) :
      Computes matrix options (problem.cost row col)
  | potentials {problem : Problem ℚ matrix.side} {matching : Matching matrix.side}
      {root? : Option (Fin matrix.side)} {state : Search.State ℚ matrix.side} {number : ℚ}
      (hproblem : Problem.normalize matrix options = .ok problem)
      (hvisits : Stage.Visits problem matching root? state)
      (hnumber : state.potentials.Counts problem number) : Computes matrix options number
  | slack {problem : Problem ℚ matrix.side} {matching : Matching matrix.side}
      {root : Fin matrix.side} {state : Search.State ℚ matrix.side}
      (hproblem : Problem.normalize matrix options = .ok problem)
      (hvisits : Stage.Visits problem matching (some root) state) (col : Fin matrix.side) :
      Computes matrix options (state.tree.slack.get col)
  | delta {problem : Problem ℚ matrix.side} {matching : Matching matrix.side}
      {root : Fin matrix.side} {state : Search.State ℚ matrix.side} {delta : ℚ}
      (hproblem : Problem.normalize matrix options = .ok problem)
      (hvisits : Stage.Visits problem matching (some root) state)
      (hdelta : delta ∈ state.tree.deltas) : Computes matrix options delta
  | costSum {problem : Problem ℚ matrix.side} {stage : Stage ℚ matrix.side} {count : Nat} {sum : ℚ}
      (hproblem : Problem.normalize matrix options = .ok problem)
      (hfinal : Stage.final problem = (stage, .ok ()))
      (hsum : Solution.costOf matrix ((stage.solution.kept problem).take count) = .ok sum) :
      Computes matrix options sum

section Computes

variable {matrix : CostMatrix ℚ} {options : Options ℚ} {bound : Nat} {number : ℚ}

/-- What is computed from bounded potentials has 53 bits. -/
theorem Potentials.IsIntegral.isSmall_of_counts {potentials : Potentials ℚ size}
    (h : potentials.IsIntegral problem low spread) (hproblem : problem.IsIntegral low spread)
    (hnumber : potentials.Counts problem number) : IsSmall number := by
  cases hnumber with
  | row row => exact h.isSmall_rows hproblem row
  | col col => exact h.isSmall_cols hproblem col
  | beyondRow row col => exact h.isSmall_cost_sub hproblem row col
  | reducedCost row col => exact h.isSmall_reducedCost hproblem row col
  | rowSum count => exact h.isSmall_total_rows hproblem count
  | colSum count => exact h.isSmall_total_cols hproblem count
  | dualObjective => exact h.isSmall_dualObjective hproblem

namespace CostMatrix.IsIntegral

variable (h : matrix.IsIntegral options bound)

include h

theorem isSmall_of_prices {padded : Square ℚ matrix.side} {forbidden : Square Bool matrix.side}
    (hpadded : matrix.padded options.padValue = .ok padded)
    (hnumber : Problem.Prices matrix.side
      (Problem.freeCosts (Problem.transformed options padded) forbidden) number) :
    IsSmall number := by
  have hfloor := options.floor_cases bound
  have hlow : options.floor bound ≤ 0 := by omega
  have hhigh : 0 ≤ options.floor bound + 2 * bound := by omega
  have hcosts : ∀ cost ∈ Problem.freeCosts (Problem.transformed options padded) forbidden,
      IsCountWithin (options.floor bound) (2 * bound) cost :=
    fun cost => h.isCountWithin_of_mem_freeCosts hpadded
  have hnonneg : (0 : ℤ) ≤ matrix.side * (2 * bound) := by positivity
  cases hnumber with
  | spread =>
      exact h.isSmall_of_isCountWithin (Problem.isCountWithin_spread hcosts hlow hhigh)
        (by omega) (by omega)
  | weightedSpread =>
      exact h.isSmall_of_isCountWithin
        (Problem.isCountWithin_weightedSpread hcosts hlow hhigh matrix.side) (by omega) (by omega)
  | raised =>
      exact h.isSmall_of_isCountWithin
        (Problem.isCountWithin_raised hcosts hlow hhigh matrix.side) (by omega) (by omega)
  | sentinel =>
      exact h.isSmall_of_isCountWithin
        (Problem.isCountWithin_sentinel hcosts hlow hhigh matrix.side) (by omega) (by omega)

theorem isSmall_transformed {padded : Square ℚ matrix.side}
    (hpadded : matrix.padded options.padValue = .ok padded) (row col : Fin matrix.side) :
    IsSmall ((Problem.transformed options padded).get row col) := by
  have hfloor := options.floor_cases bound
  have hnonneg : (0 : ℤ) ≤ matrix.side * (2 * bound) := by positivity
  exact h.isSmall_of_isCountWithin (h.isCountWithin_transformed hpadded row col)
    (by omega) (by omega)

theorem isCount_costAt (cell : Nat × Nat) : IsCount bound (matrix.costAt cell) := by
  rw [costAt]
  cases hget : matrix.get? cell.1 cell.2 with
  | none => exact ⟨0, by simp, by simp⟩
  | some cost => exact h.isCount_data cost (Array.mem_of_getElem? hget)

/-- The sums of the costs of kept cells, added one after another. -/
theorem isSmall_of_costOf_take {problem : Problem ℚ matrix.side}
    (hframes : problem.Frames matrix options) {solution : Solution ℚ matrix.side} {count : Nat}
    (hsum : Solution.costOf matrix ((solution.kept problem).take count) = .ok number) :
    IsSmall number := by
  have hget : ∀ cell ∈ (solution.kept problem).take count,
      matrix.get? cell.1 cell.2 = some (matrix.costAt (cell.1, cell.2)) := by
    intro cell hcell
    obtain ⟨hrow, hcol⟩ := Solution.inside_of_mem_kept hframes (List.mem_of_mem_take hcell)
    exact get?_eq_some_costAt h.wellShaped hrow hcol
  rw [Solution.costOf_eq hget, Except.ok.injEq, List.map_take] at hsum
  rw [← hsum]
  have hcosts : ∀ cost ∈ (solution.kept problem).map fun cell => matrix.costAt (cell.1, cell.2),
      IsCount bound cost := by
    intro cost hcost
    obtain ⟨cell, -, rfl⟩ := List.mem_map.mp hcost
    exact h.isCount_costAt _
  have hlength : ((solution.kept problem).map fun cell =>
      matrix.costAt (cell.1, cell.2)).length ≤ matrix.side := by
    rw [List.length_map]
    exact solution.length_kept_le problem
  refine (isCount_total_take hcosts (Int.natCast_nonneg bound) hlength count).mono ?_
  have hbound := h.bound_le
  have hspread : (0 : ℤ) ≤ matrix.side * (matrix.side * bound) := by positivity
  have hside : (0 : ℤ) ≤ matrix.side * bound := by positivity
  zify at hbound
  linarith

/-- No number of a run takes more than 53 bits. -/
theorem isSmall_of_computes (hnumber : Computes matrix options number) : IsSmall number := by
  cases hnumber with
  | transformed hpadded row col => exact h.isSmall_transformed hpadded row col
  | sentinel hpadded hprices => exact h.isSmall_of_prices hpadded hprices
  | cost hproblem row col =>
      have hintegral := h.isIntegral_of_normalize hproblem
      exact hintegral.isSmall_cost row col
  | potentials hproblem hvisits hcounts =>
      have hintegral := h.isIntegral_of_normalize hproblem
      exact (Stage.isIntegral_of_visits hintegral hvisits).isSmall_of_counts hintegral hcounts
  | slack hproblem hvisits col =>
      exact Stage.isSmall_slack_of_visits (h.isIntegral_of_normalize hproblem) hvisits col
  | delta hproblem hvisits hdelta =>
      exact Stage.isSmall_of_mem_deltas_of_visits (h.isIntegral_of_normalize hproblem) hvisits
        hdelta
  | costSum hproblem _ hsum =>
      exact h.isSmall_of_costOf_take (Problem.frames_of_normalize hproblem) hsum

end CostMatrix.IsIntegral

end Computes

end Hungarian
