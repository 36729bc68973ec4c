import Hungarian.Matching
import Hungarian.Potentials
import Hungarian.Proofs.Potentials.Reduced

/-!
# Feasible potentials

Over exact numbers the initial potentials are feasible, a move by no more than the least reduced
cost that it lowers keeps them so, and feasible potentials bound the cost of every permutation from
below.
-/

namespace Hungarian

open CostArithmetic

variable {size : Nat} {problem : Problem ℚ size} {potentials : Potentials ℚ size}
  {σ : Equiv.Perm (Fin size)} {row col : Fin size}

def Problem.totalCost (problem : Problem ℚ size) (σ : Equiv.Perm (Fin size)) : ℚ :=
  ∑ row, problem.cost row (σ row)

namespace Potentials

def Feasible (problem : Problem ℚ size) (potentials : Potentials ℚ size) : Prop :=
  ∀ row col, 0 ≤ potentials.reducedCost problem row col

theorem reducedCost_eq : potentials.reducedCost problem row col =
    problem.cost row col - potentials.rows.get row - potentials.cols.get col := rfl

theorem reducedCost_tighten {delta : ℚ} {rows cols : Vector Bool size} :
    (potentials.tighten delta rows cols).reducedCost problem row col =
      potentials.reducedCost problem row col - (if rows.get row then delta else 0) +
        (if cols.get col then delta else 0) := by
  rw [reducedCost_eq, reducedCost_eq, rows_tighten, cols_tighten]
  split <;> split <;> ring

theorem feasible_initial (problem : Problem ℚ size) : (initial problem).Feasible problem :=
  (fitsRows_exact problem).reducedCost_nonneg

theorem dualObjective_eq : potentials.dualObjective =
    ∑ index, potentials.rows.get index + ∑ index, potentials.cols.get index := by
  rw [dualObjective, total_toList, total_toList]

/-- What a permutation costs beyond the dual objective is what its cells cost beyond their
potentials. -/
theorem totalCost_eq_dualObjective_add (potentials : Potentials ℚ size) : problem.totalCost σ =
    potentials.dualObjective + ∑ row, potentials.reducedCost problem row (σ row) := by
  have hcols : ∑ row, potentials.cols.get (σ row) = ∑ col, potentials.cols.get col :=
    Equiv.sum_comp σ potentials.cols.get
  rw [Problem.totalCost, dualObjective_eq, ← hcols, ← Finset.sum_add_distrib,
    ← Finset.sum_add_distrib]
  apply Finset.sum_congr rfl
  intro row _
  rw [reducedCost_eq]
  ring

theorem Feasible.dualObjective_le_totalCost (h : potentials.Feasible problem) :
    potentials.dualObjective ≤ problem.totalCost σ := by
  rw [totalCost_eq_dualObjective_add potentials]
  have hsum := Finset.sum_nonneg fun row (_ : row ∈ Finset.univ) => h row (σ row)
  linarith

theorem totalCost_le_dualObjective_add {error : ℚ}
    (h : ∀ row, potentials.reducedCost problem row (σ row) ≤ error) :
    problem.totalCost σ ≤ potentials.dualObjective + size * error := by
  have hsum : ∑ row, potentials.reducedCost problem row (σ row) ≤ ∑ _row : Fin size, error :=
    Finset.sum_le_sum fun row _ => h row
  rw [Finset.sum_const, Finset.card_univ, Fintype.card_fin, nsmul_eq_mul] at hsum
  rw [totalCost_eq_dualObjective_add potentials]
  linarith

theorem epsilon_le_allowance :
    problem.epsilon ≤ potentials.allowance problem row col := by
  have hunit : (0 : ℚ) ≤ 1 / 2 ^ 50 := by norm_num
  exact le_add_of_nonneg_right (mul_nonneg hunit (le_max_of_le_left (abs_nonneg _)))

theorem Feasible.isFeasible (h : potentials.Feasible problem) (hnonneg : 0 ≤ problem.epsilon)
    (part : Fin size → Fin size → Bool) : potentials.isFeasible problem part = true := by
  rw [Potentials.isFeasible, List.all_eq_true]
  rintro ⟨row, col⟩ -
  have hallowance : 0 ≤ potentials.allowance problem row col :=
    hnonneg.trans epsilon_le_allowance
  rw [Bool.or_eq_true, decide_eq_true_eq]
  exact Or.inr ((neg_nonpos.mpr hallowance).trans (h row col))

theorem Feasible.isTight (h : potentials.Feasible problem)
    (hnear : potentials.reducedCost problem row col ≤ problem.epsilon) :
    potentials.isTight problem row col = true := by
  have habs : |potentials.reducedCost problem row col| ≤ problem.epsilon := by
    rw [abs_of_nonneg (h row col)]
    exact hnear
  exact decide_eq_true (habs.trans epsilon_le_allowance)

/-- Potentials in every group of numbers that contains the costs. -/
def Generated (problem : Problem ℚ size) (potentials : Potentials ℚ size) : Prop :=
  ∀ group : AddSubgroup ℚ, (∀ row col, problem.cost row col ∈ group) →
    (∀ row, potentials.rows.get row ∈ group) ∧ ∀ col, potentials.cols.get col ∈ group

theorem generated_initial (problem : Problem ℚ size) : (initial problem).Generated problem := by
  intro group hgroup
  have hrows : ∀ row, (initial problem).rows.get row ∈ group := by
    intro row
    rw [rows_initial]
    apply least?_getD_mem_group
    intro cost hcost
    obtain ⟨col, rfl⟩ := mem_toList_iff_get.mp hcost
    exact hgroup row col
  refine ⟨hrows, fun col => ?_⟩
  rw [cols_initial]
  apply least?_getD_mem_group
  intro cost hcost
  obtain ⟨row, -, rfl⟩ := List.mem_map.mp hcost
  exact group.sub_mem (hgroup row col) (hrows row)

theorem Generated.reducedCost_mem (h : potentials.Generated problem) {group : AddSubgroup ℚ}
    (hgroup : ∀ row col, problem.cost row col ∈ group) (row col : Fin size) :
    potentials.reducedCost problem row col ∈ group := by
  obtain ⟨hrows, hcols⟩ := h group hgroup
  exact group.sub_mem (group.sub_mem (hgroup row col) (hrows row)) (hcols col)

theorem Generated.tighten (h : potentials.Generated problem) {delta : ℚ}
    {rows cols : Vector Bool size}
    (hdelta : ∀ group : AddSubgroup ℚ, (∀ row col, problem.cost row col ∈ group) →
      delta ∈ group) : (potentials.tighten delta rows cols).Generated problem := by
  intro group hgroup
  obtain ⟨hrows, hcols⟩ := h group hgroup
  constructor
  · intro row
    rw [rows_tighten]
    split
    · exact group.add_mem (hrows row) (hdelta group hgroup)
    · exact hrows row
  · intro col
    rw [cols_tighten]
    split
    · exact group.sub_mem (hcols col) (hdelta group hgroup)
    · exact hcols col

/-- The potentials are feasible, and within the tolerance no matched cell costs more than its two
potentials. -/
structure Supports (problem : Problem ℚ size) (matching : Matching size)
    (potentials : Potentials ℚ size) : Prop where
  feasible : potentials.Feasible problem
  generated : potentials.Generated problem
  matched_near : ∀ row col, matching.colOf row = some col →
    potentials.reducedCost problem row col ≤ problem.epsilon

end Potentials

end Hungarian
