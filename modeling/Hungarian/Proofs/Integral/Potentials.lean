import Hungarian.Proofs.Arithmetic.Whole
import Hungarian.Proofs.Stage.Range

/-!
# Whole numbers in the potentials

When all costs are whole numbers of a bounded size, so are the potentials that a run over them meets
and the reduced costs under them, and none is more than twice as large as the costs are apart.
-/

namespace Hungarian

open CostArithmetic

variable {size : Nat} {problem : Problem ℚ size} {row col : Fin size} {low spread : ℤ}

/-- A problem over whole costs. They lie on both sides of zero, twice as many of them as there are
rows add up to 53 bits, and the tolerance is less than one. -/
structure Problem.IsIntegral (problem : Problem ℚ size) (low spread : ℤ) : Prop where
  whole : ∀ row col, ∃ count : ℤ, problem.cost row col = count
  within : problem.CostsWithin low (low + spread)
  low_nonpos : low ≤ 0
  high_nonneg : 0 ≤ low + spread
  spread_le : 2 * size * spread ≤ 2 ^ 53
  epsilon_nonneg : 0 ≤ problem.epsilon
  epsilon_lt_one : problem.epsilon < 1

namespace Problem.IsIntegral

variable (h : problem.IsIntegral low spread)

include h

theorem spread_nonneg : 0 ≤ spread := by
  have hlow := h.low_nonpos
  have hhigh := h.high_nonneg
  omega

theorem isSmall_of_isCount {number : ℚ} (hnumber : IsCount (2 * size * spread) number) :
    IsSmall number :=
  hnumber.mono h.spread_le

/-- The whole numbers within twice the spread. -/
theorem isSmall_of_abs_le (row : Fin size) {number : ℚ} (hwhole : ∃ count : ℤ, number = count)
    (hbound : |number| ≤ 2 * spread) : IsSmall number := by
  have hsize : (1 : ℤ) ≤ size := by exact_mod_cast row.pos
  have hle : 2 * 1 * spread ≤ 2 * size * spread :=
    mul_le_mul_of_nonneg_right (by omega) h.spread_nonneg
  have hcount : IsCount (2 * spread) number := isCount_of_abs_le hwhole (by exact_mod_cast hbound)
  exact h.isSmall_of_isCount (hcount.mono hle)

theorem abs_cost_le (row col : Fin size) : |problem.cost row col| ≤ spread := by
  have hcost := h.within row col
  have hlow : (low : ℚ) ≤ 0 := by exact_mod_cast h.low_nonpos
  have hhigh : (0 : ℚ) ≤ low + spread := by exact_mod_cast h.high_nonneg
  rw [abs_le]
  constructor <;> linarith [hcost.1, hcost.2]

theorem isSmall_cost (row col : Fin size) : IsSmall (problem.cost row col) := by
  refine h.isSmall_of_abs_le row (h.whole row col) ?_
  have hspread : (0 : ℚ) ≤ spread := by exact_mod_cast h.spread_nonneg
  linarith [h.abs_cost_le row col]

theorem cost_mem_zmultiples (row col : Fin size) :
    problem.cost row col ∈ AddSubgroup.zmultiples (1 : ℚ) := by
  obtain ⟨count, hcount⟩ := h.whole row col
  rw [hcount]
  exact AddSubgroup.mem_zmultiples_iff.mpr ⟨count, by simp⟩

end Problem.IsIntegral

namespace Potentials

variable {potentials : Potentials ℚ size}

structure IsIntegral (problem : Problem ℚ size) (low spread : ℤ) (potentials : Potentials ℚ size) :
    Prop where
  feasible : potentials.Feasible problem
  generated : potentials.Generated problem
  inRange : potentials.InRange problem low (low + spread)

namespace IsIntegral

variable (h : potentials.IsIntegral problem low spread) (hproblem : problem.IsIntegral low spread)

include h hproblem

theorem whole_rows (row : Fin size) : ∃ count : ℤ, potentials.rows.get row = count :=
  exists_eq_intCast ((h.generated _ hproblem.cost_mem_zmultiples).1 row)

theorem whole_cols (col : Fin size) : ∃ count : ℤ, potentials.cols.get col = count :=
  exists_eq_intCast ((h.generated _ hproblem.cost_mem_zmultiples).2 col)

theorem whole_reducedCost (row col : Fin size) :
    ∃ count : ℤ, potentials.reducedCost problem row col = count :=
  exists_eq_intCast (h.generated.reducedCost_mem hproblem.cost_mem_zmultiples row col)

theorem abs_rows_le (row : Fin size) : |potentials.rows.get row| ≤ spread := by
  have hrow := h.inRange.rows_mem row
  have hlow : (low : ℚ) ≤ 0 := by exact_mod_cast hproblem.low_nonpos
  have hhigh : (0 : ℚ) ≤ low + spread := by exact_mod_cast hproblem.high_nonneg
  rw [abs_le]
  constructor <;> linarith [hrow.1, hrow.2]

theorem abs_cols_le (col : Fin size) : |potentials.cols.get col| ≤ spread := by
  have hcol := h.inRange.cols_mem col
  obtain ⟨count, hcount⟩ := h.whole_cols hproblem col
  have hbelow : -potentials.cols.get col ≤ spread := by
    refine le_of_le_add_of_lt_one ⟨-count, by rw [hcount, Int.cast_neg]⟩ ?_
      hproblem.epsilon_lt_one
    linarith [hcol.1]
  rw [abs_le]
  constructor <;> linarith [hcol.2]

theorem isCount_rows (row : Fin size) : IsCount spread (potentials.rows.get row) :=
  isCount_of_abs_le (h.whole_rows hproblem row) (h.abs_rows_le hproblem row)

theorem isCount_cols (col : Fin size) : IsCount spread (potentials.cols.get col) :=
  isCount_of_abs_le (h.whole_cols hproblem col) (h.abs_cols_le hproblem col)

theorem isSmall_rows (row : Fin size) : IsSmall (potentials.rows.get row) := by
  refine hproblem.isSmall_of_abs_le row (h.whole_rows hproblem row) ?_
  have hspread : (0 : ℚ) ≤ spread := by exact_mod_cast hproblem.spread_nonneg
  linarith [h.abs_rows_le hproblem row]

theorem isSmall_cols (col : Fin size) : IsSmall (potentials.cols.get col) := by
  refine hproblem.isSmall_of_abs_le col (h.whole_cols hproblem col) ?_
  have hspread : (0 : ℚ) ≤ spread := by exact_mod_cast hproblem.spread_nonneg
  linarith [h.abs_cols_le hproblem col]

theorem isSmall_cost_sub (row col : Fin size) :
    IsSmall (problem.cost row col - potentials.rows.get row) := by
  obtain ⟨cost, hcost⟩ := hproblem.whole row col
  obtain ⟨count, hcount⟩ := h.whole_rows hproblem row
  refine hproblem.isSmall_of_abs_le row ⟨cost - count, by rw [hcost, hcount, Int.cast_sub]⟩ ?_
  have hspread : (0 : ℚ) ≤ spread := by exact_mod_cast hproblem.spread_nonneg
  have hmem := h.inRange.cost_sub_mem hproblem.within row col
  rw [abs_le]
  constructor <;> linarith [hmem.1, hmem.2]

theorem isSmall_reducedCost (row col : Fin size) :
    IsSmall (potentials.reducedCost problem row col) := by
  have hwhole := h.whole_reducedCost hproblem row col
  refine hproblem.isSmall_of_abs_le row hwhole ?_
  rw [abs_of_nonneg (h.feasible row col)]
  have hle := h.inRange.reducedCost_le hproblem.within row col
  have hbound : potentials.reducedCost problem row col ≤ ((2 * spread : ℤ) : ℚ) := by
    refine le_of_le_add_of_lt_one hwhole ?_ hproblem.epsilon_lt_one
    push_cast
    linarith
  exact_mod_cast hbound

section Sums

theorem isCount_total_rows (count : Nat) :
    IsCount (size * spread) (total (potentials.rows.toList.take count)) := by
  refine isCount_total_take ?_ hproblem.spread_nonneg (le_of_eq (Vector.length_toList)) count
  intro potential hpotential
  obtain ⟨row, rfl⟩ := mem_toList_iff_get.mp hpotential
  exact h.isCount_rows hproblem row

theorem isCount_total_cols (count : Nat) :
    IsCount (size * spread) (total (potentials.cols.toList.take count)) := by
  refine isCount_total_take ?_ hproblem.spread_nonneg (le_of_eq (Vector.length_toList)) count
  intro potential hpotential
  obtain ⟨col, rfl⟩ := mem_toList_iff_get.mp hpotential
  exact h.isCount_cols hproblem col

theorem isSmall_total_rows (count : Nat) :
    IsSmall (total (potentials.rows.toList.take count)) := by
  refine hproblem.isSmall_of_isCount ((h.isCount_total_rows hproblem count).mono ?_)
  have hnonneg : 0 ≤ size * spread := mul_nonneg (Int.natCast_nonneg size) hproblem.spread_nonneg
  linarith

theorem isSmall_total_cols (count : Nat) :
    IsSmall (total (potentials.cols.toList.take count)) := by
  refine hproblem.isSmall_of_isCount ((h.isCount_total_cols hproblem count).mono ?_)
  have hnonneg : 0 ≤ size * spread := mul_nonneg (Int.natCast_nonneg size) hproblem.spread_nonneg
  linarith

theorem isSmall_dualObjective : IsSmall potentials.dualObjective := by
  have hrows := h.isCount_total_rows hproblem size
  have hcols := h.isCount_total_cols hproblem size
  rw [List.take_of_length_le (le_of_eq Vector.length_toList)] at hrows hcols
  exact hproblem.isSmall_of_isCount ((hrows.add hcols).mono (by linarith))

end Sums

end IsIntegral

end Potentials

end Hungarian
