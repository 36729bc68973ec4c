import Hungarian.Proofs.Matching.Perfect
import Hungarian.Proofs.Potentials.Feasible

/-!
# The range of potentials

Potentials could drift away over many moves. They do not, because the column that a search ends at
keeps its initial potential until then: feasibility at such a column bounds the potentials of all
rows, and these in turn those of the matched columns.
-/

namespace Hungarian

open CostArithmetic

variable {size : Nat} {problem : Problem ℚ size} {matching : Matching size}
  {potentials : Potentials ℚ size} {row col : Fin size} {low high : ℚ}

def Problem.CostsWithin (problem : Problem ℚ size) (low high : ℚ) : Prop :=
  ∀ row col, problem.cost row col ∈ Set.Icc low high

namespace Potentials

section Drift

variable {before middle after : Potentials ℚ size}

structure DriftsTo (before after : Potentials ℚ size) : Prop where
  rows_le : ∀ row, before.rows.get row ≤ after.rows.get row
  cols_ge : ∀ col, after.cols.get col ≤ before.cols.get col

theorem DriftsTo.refl (potentials : Potentials ℚ size) : potentials.DriftsTo potentials where
  rows_le := fun _ => le_rfl
  cols_ge := fun _ => le_rfl

theorem DriftsTo.trans (h : before.DriftsTo middle) (hnext : middle.DriftsTo after) :
    before.DriftsTo after where
  rows_le := fun row => (h.rows_le row).trans (hnext.rows_le row)
  cols_ge := fun col => (hnext.cols_ge col).trans (h.cols_ge col)

theorem driftsTo_tighten (potentials : Potentials ℚ size) {delta : ℚ} (hdelta : 0 ≤ delta)
    (rows cols : Vector Bool size) :
    potentials.DriftsTo (potentials.tighten delta rows cols) where
  rows_le := by
    intro row
    rw [rows_tighten]
    split
    · exact le_add_of_nonneg_right hdelta
    · exact le_rfl
  cols_ge := by
    intro col
    rw [cols_tighten]
    split
    · exact sub_le_self _ hdelta
    · exact le_rfl

end Drift

/-- The potentials of rows have only risen and those of columns only fallen, and columns that are
still free have kept theirs. -/
structure Departs (problem : Problem ℚ size) (matching : Matching size)
    (potentials : Potentials ℚ size) : Prop where
  rows_ge : ∀ row, (initial problem).rows.get row ≤ potentials.rows.get row
  cols_le : ∀ col, potentials.cols.get col ≤ (initial problem).cols.get col
  free_eq : ∀ col, matching.rowOf col = none →
    potentials.cols.get col = (initial problem).cols.get col

theorem departs_initial : (initial problem).Departs problem matching where
  rows_ge := fun _ => le_rfl
  cols_le := fun _ => le_rfl
  free_eq := fun _ _ => rfl

section Initial

theorem initial_rows_le (problem : Problem ℚ size) (row col : Fin size) :
    (initial problem).rows.get row ≤ problem.cost row col :=
  ((fitsRows_exact problem).least_row row).2 col

theorem exists_initial_rows_eq (problem : Problem ℚ size) (row : Fin size) :
    ∃ col, (initial problem).rows.get row = problem.cost row col :=
  ((fitsRows_exact problem).least_row row).1

theorem exists_initial_cols_eq (problem : Problem ℚ size) (col : Fin size) :
    ∃ row, (initial problem).cols.get col =
      problem.cost row col - (initial problem).rows.get row :=
  ((fitsRows_exact problem).least_col col).1

theorem isLeast_initial_cols (problem : Problem ℚ size) (col : Fin size) :
    IsLeast (Set.range fun row => problem.cost row col - (initial problem).rows.get row)
      ((initial problem).cols.get col) := by
  obtain ⟨⟨row, hrow⟩, hle⟩ := (fitsRows_exact problem).least_col col
  exact ⟨⟨row, hrow.symm⟩, Set.forall_mem_range.mpr hle⟩

theorem initial_cols_nonneg (problem : Problem ℚ size) (col : Fin size) :
    0 ≤ (initial problem).cols.get col :=
  (fitsRows_exact problem).cols_nonneg col

variable (hcosts : problem.CostsWithin low high)

include hcosts

theorem initial_rows_mem (row : Fin size) : (initial problem).rows.get row ∈ Set.Icc low high := by
  obtain ⟨col, hcol⟩ := exists_initial_rows_eq problem row
  rw [hcol]
  exact hcosts row col

theorem initial_cols_le (col : Fin size) : (initial problem).cols.get col ≤ high - low := by
  obtain ⟨row, hrow⟩ := exists_initial_cols_eq problem col
  rw [hrow]
  exact sub_le_sub (hcosts row col).2 (initial_rows_mem hcosts row).1

end Initial

/-- The rows stay between the least and the greatest cost, and the columns within as much as these
differ by. -/
structure InRange (problem : Problem ℚ size) (low high : ℚ) (potentials : Potentials ℚ size) :
    Prop where
  rows_mem : ∀ row, potentials.rows.get row ∈ Set.Icc low high
  cols_mem : ∀ col, potentials.cols.get col ∈ Set.Icc (low - high - problem.epsilon) (high - low)

/-- A column with its initial potential is dear enough to keep all rows down. -/
theorem Departs.inRange (h : potentials.Departs problem matching)
    (hsupports : potentials.Supports problem matching) (hconsistent : matching.Consistent)
    (hnonneg : 0 ≤ problem.epsilon) (hcosts : problem.CostsWithin low high)
    (hfree : matching.rowOf col = none) : potentials.InRange problem low high := by
  have hrows : ∀ row, potentials.rows.get row ∈ Set.Icc low high := by
    intro row
    refine ⟨(initial_rows_mem hcosts row).1.trans (h.rows_ge row), ?_⟩
    have hfeasible := hsupports.feasible row col
    have hinitial := initial_cols_nonneg problem col
    have hcost := (hcosts row col).2
    rw [reducedCost_eq, h.free_eq col hfree] at hfeasible
    linarith
  refine ⟨hrows, fun other => ⟨?_, (h.cols_le other).trans (initial_cols_le hcosts other)⟩⟩
  cases hother : matching.rowOf other with
  | none =>
      have hinitial := initial_cols_nonneg problem other
      have hcost := hcosts other other
      rw [h.free_eq other hother]
      linarith [hcost.1, hcost.2]
  | some row =>
      have hnear := hsupports.matched_near row other ((hconsistent row other).mpr hother)
      have hcost := (hcosts row other).1
      have hrow := (hrows row).2
      rw [reducedCost_eq] at hnear
      linarith

namespace InRange

variable (h : potentials.InRange problem low high) (hcosts : problem.CostsWithin low high)

include h hcosts

theorem cost_sub_mem (row col : Fin size) : problem.cost row col - potentials.rows.get row ∈
    Set.Icc (low - high) (high - low) := by
  have hcost := hcosts row col
  have hrow := h.rows_mem row
  rw [Set.mem_Icc] at *
  constructor <;> linarith

theorem reducedCost_le (row col : Fin size) :
    potentials.reducedCost problem row col ≤ 2 * (high - low) + problem.epsilon := by
  have hcost := (h.cost_sub_mem hcosts row col).2
  have hcol := (h.cols_mem col).1
  rw [reducedCost_eq]
  linarith

end InRange

end Potentials

end Hungarian
