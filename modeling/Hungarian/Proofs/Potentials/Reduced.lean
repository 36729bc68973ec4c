import Hungarian.Potentials
import Hungarian.Proofs.Arithmetic.Exact

/-!
# Tight cells at the start

The initial potentials leave a tight cell in every row and in every column. For a column this is the
cell that its potential is taken from. A row has the cell of its least cost: the potential of the
column there is not positive, since what the cell costs beyond its row bounds it, and not negative,
since no cell costs less than the potential of its row.

Nothing of this needs an exact difference. It is enough that the potential of a column is the least
of the very differences that the reduced costs start from, and that a difference, rounded or not,
tells which of its operands is larger.
-/

namespace Hungarian

open CostArithmetic

/-- Arithmetic in which the sign of a difference tells how finite operands compare. -/
class OrdersDifferences (α : Type) [CostArithmetic α] : Prop where
  le_trans : ∀ x y z : α, x ≤ y → y ≤ z → x ≤ z
  least : ∀ costs : List α, costs ≠ [] → (∀ cost ∈ costs, isFinite cost = true) →
    (least? costs).getD 0 ∈ costs ∧ ∀ cost ∈ costs, (least? costs).getD 0 ≤ cost
  isFinite_of_sub : ∀ x y : α, isFinite (x - y) = true → isFinite x = true ∧ isFinite y = true
  sub_nonneg : ∀ x y : α, isFinite x = true → isFinite y = true → y ≤ x → 0 ≤ x - y
  sub_nonpos : ∀ x y : α, isFinite x = true → isFinite y = true → x ≤ y → x - y ≤ 0

instance : OrdersDifferences ℚ where
  le_trans _ _ _ := le_trans
  least _ hne _ := ⟨least?_getD_mem hne, fun _ => least?_getD_le⟩
  isFinite_of_sub _ _ _ := ⟨rfl, rfl⟩
  sub_nonneg _ _ _ _ := sub_nonneg.mpr
  sub_nonpos _ _ _ _ := sub_nonpos.mpr

namespace Potentials

variable {α : Type} {size : Nat} [CostArithmetic α] {problem : Problem α size} {row col : Fin size}

/-- Potentials that are feasible, and of which none could be higher alone. -/
structure Reduces (isZero : α → Prop) (problem : Problem α size)
    (potentials : Potentials α size) : Prop where
  nonneg : ∀ row col, 0 ≤ potentials.reducedCost problem row col
  exists_col : ∀ row, ∃ col, isZero (potentials.reducedCost problem row col)
  exists_row : ∀ col, ∃ row, isZero (potentials.reducedCost problem row col)

def FitsRows (problem : Problem α size) : Prop :=
  ∀ row col, isFinite (problem.cost row col - (initial problem).rows.get row) = true

instance (problem : Problem α size) : Decidable (FitsRows problem) :=
  inferInstanceAs (Decidable (∀ _ _, _ = _))

namespace FitsRows

open OrdersDifferences

variable [OrdersDifferences α] (h : FitsRows problem)

include h

/-- The potential of a row is the least of its costs. -/
theorem least_row (row : Fin size) :
    (∃ col, (initial problem).rows.get row = problem.cost row col) ∧
      ∀ col, (initial problem).rows.get row ≤ problem.cost row col := by
  have hmem : ∀ cost, cost ∈ (problem.costs.row row).toList ↔ ∃ col, problem.cost row col = cost :=
    fun cost => mem_toList_iff_get
  have hne := List.ne_nil_of_mem ((hmem _).mpr ⟨row, rfl⟩)
  obtain ⟨hleast, hle⟩ := least _ hne fun cost hcost => by
    obtain ⟨col, rfl⟩ := (hmem cost).mp hcost
    exact (isFinite_of_sub _ _ (h row col)).1
  rw [← rows_initial] at hleast hle
  obtain ⟨col, hcol⟩ := (hmem _).mp hleast
  exact ⟨⟨col, hcol.symm⟩, fun col => hle _ ((hmem _).mpr ⟨col, rfl⟩)⟩

/-- The potential of a column is the least of what its cells cost beyond their rows. -/
theorem least_col (col : Fin size) :
    (∃ row, (initial problem).cols.get col =
      problem.cost row col - (initial problem).rows.get row) ∧
      ∀ row, (initial problem).cols.get col ≤
        problem.cost row col - (initial problem).rows.get row := by
  have hmem : ∀ cost, cost ∈ (List.finRange size).map (fun row =>
      problem.cost row col - (initial problem).rows.get row) ↔
      ∃ row, problem.cost row col - (initial problem).rows.get row = cost := by
    simp
  have hne := List.ne_nil_of_mem ((hmem _).mpr ⟨col, rfl⟩)
  obtain ⟨hleast, hle⟩ := least _ hne fun cost hcost => by
    obtain ⟨row, rfl⟩ := (hmem cost).mp hcost
    exact h row col
  rw [← cols_initial] at hleast hle
  obtain ⟨row, hrow⟩ := (hmem _).mp hleast
  exact ⟨⟨row, hrow.symm⟩, fun row => hle _ ((hmem _).mpr ⟨row, rfl⟩)⟩

theorem isFinite_col (col : Fin size) : isFinite ((initial problem).cols.get col) = true := by
  obtain ⟨⟨row, hrow⟩, -⟩ := h.least_col col
  rw [hrow]
  exact h row col

theorem cols_nonneg (col : Fin size) : 0 ≤ (initial problem).cols.get col := by
  obtain ⟨⟨row, hrow⟩, -⟩ := h.least_col col
  obtain ⟨hcost, hpotential⟩ := isFinite_of_sub _ _ (h row col)
  rw [hrow]
  exact sub_nonneg _ _ hcost hpotential ((h.least_row row).2 col)

theorem reducedCost_nonneg (row col : Fin size) :
    0 ≤ (initial problem).reducedCost problem row col :=
  sub_nonneg _ _ (h row col) (h.isFinite_col col) ((h.least_col col).2 row)

/-- A cell is tight when it costs no more beyond its row than its column is worth. -/
theorem reducedCost_nonpos (hle : problem.cost row col - (initial problem).rows.get row ≤
    (initial problem).cols.get col) : (initial problem).reducedCost problem row col ≤ 0 :=
  sub_nonpos _ _ (h row col) (h.isFinite_col col) hle

theorem reduces_initial {isZero : α → Prop} (hzero : ∀ x, 0 ≤ x → x ≤ 0 → isZero x) :
    (initial problem).Reduces isZero problem where
  nonneg := h.reducedCost_nonneg
  exists_col := by
    intro row
    obtain ⟨⟨col, hcol⟩, hle⟩ := h.least_row row
    obtain ⟨hcost, hpotential⟩ := isFinite_of_sub _ _ (h row col)
    have hequal : problem.cost row col ≤ (initial problem).rows.get row := by
      have hrefl := hle col
      rwa [hcol] at hrefl ⊢
    have hleft := sub_nonpos _ _ hcost hpotential hequal
    refine ⟨col, hzero _ (h.reducedCost_nonneg row col) (h.reducedCost_nonpos ?_)⟩
    exact le_trans _ _ _ hleft (h.cols_nonneg col)
  exists_row := by
    intro col
    obtain ⟨⟨row, hrow⟩, hle⟩ := h.least_col col
    refine ⟨row, hzero _ (h.reducedCost_nonneg row col) (h.reducedCost_nonpos ?_)⟩
    have hrefl := hle row
    rwa [hrow] at hrefl ⊢

end FitsRows

theorem fitsRows_exact (problem : Problem ℚ size) : FitsRows problem := fun _ _ => rfl

end Potentials

end Hungarian
