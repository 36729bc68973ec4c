import Mathlib.Data.Fintype.Fin
import Hungarian.Problem.Basic

/-!
# The cells that a permutation selects

A permutation selects one cell in every row of the square. Those cells fall into three parts: the
kept ones, which the caller may use, the stripped ones, which are forbidden, and padding. How many
are padding depends on the shape alone.
-/

namespace Hungarian.Problem

variable {α : Type} {size : Nat} (problem : Problem α size) (σ : Equiv.Perm (Fin size))

def keptRows : Finset (Fin size) :=
  Finset.univ.filter fun row => problem.isAllowed row (σ row)

def strippedRows : Finset (Fin size) :=
  Finset.univ.filter fun row =>
    !problem.isPadding row (σ row) && problem.isForbidden row (σ row)

def innerRows : Finset (Fin size) :=
  Finset.univ.filter fun row => problem.isPadding row (σ row) = false

def paddedRows : Finset (Fin size) :=
  Finset.univ.filter fun row => problem.isPadding row (σ row) = true

def forbiddenRows : Finset (Fin size) :=
  Finset.univ.filter fun row => problem.isForbidden row (σ row)

def keptCells : Finset (Nat × Nat) :=
  (problem.keptRows σ).image fun row => (row.val, (σ row).val)

variable {problem σ} {row : Fin size}

theorem mem_keptRows_iff : row ∈ problem.keptRows σ ↔ problem.isAllowed row (σ row) := by
  simp [keptRows]

theorem mem_strippedRows_iff : row ∈ problem.strippedRows σ ↔
    problem.isPadding row (σ row) = false ∧ problem.isForbidden row (σ row) := by
  simp [strippedRows]

theorem mem_innerRows_iff : row ∈ problem.innerRows σ ↔
    problem.isPadding row (σ row) = false := by
  simp [innerRows]

theorem mem_paddedRows_iff : row ∈ problem.paddedRows σ ↔
    problem.isPadding row (σ row) = true := by
  simp [paddedRows]

theorem mem_forbiddenRows_iff : row ∈ problem.forbiddenRows σ ↔
    problem.isForbidden row (σ row) := by
  simp [forbiddenRows]

theorem mem_keptCells_iff {cell : Nat × Nat} : cell ∈ problem.keptCells σ ↔
    ∃ row : Fin size, row.val = cell.1 ∧ (σ row).val = cell.2 ∧ problem.isAllowed row (σ row) := by
  simp only [keptCells, Finset.mem_image, mem_keptRows_iff, Prod.ext_iff]
  constructor
  · rintro ⟨row, hallowed, hrow, hcol⟩
    exact ⟨row, hrow, hcol, hallowed⟩
  · rintro ⟨row, hrow, hcol, hallowed⟩
    exact ⟨row, hallowed, hrow, hcol⟩

theorem card_keptCells : (problem.keptCells σ).card = (problem.keptRows σ).card :=
  Finset.card_image_of_injective _ fun _ _ heq => Fin.ext (congrArg Prod.fst heq)

theorem disjoint_keptRows_strippedRows :
    Disjoint (problem.keptRows σ) (problem.strippedRows σ) := by
  rw [Finset.disjoint_left]
  intro row hkept hstripped
  rw [mem_keptRows_iff, isAllowed_iff] at hkept
  rw [mem_strippedRows_iff, hkept.2] at hstripped
  exact absurd hstripped.2 (by simp)

theorem keptRows_union_strippedRows :
    problem.keptRows σ ∪ problem.strippedRows σ = problem.innerRows σ := by
  ext row
  rw [Finset.mem_union, mem_keptRows_iff, mem_strippedRows_iff, mem_innerRows_iff, isAllowed_iff]
  cases problem.isForbidden row (σ row) <;> simp

/-- Where no padding is forbidden, the forbidden cells are the stripped ones. -/
theorem strippedRows_eq_forbiddenRows
    (hinside : ∀ row col, problem.isForbidden row col → problem.isPadding row col = false) :
    problem.strippedRows σ = problem.forbiddenRows σ := by
  ext row
  rw [mem_strippedRows_iff, mem_forbiddenRows_iff]
  exact and_iff_right_of_imp (hinside row (σ row))

/-- The cells inside the caller's shape number as many as its smaller side. -/
theorem card_innerRows (hsize : size = max problem.rows problem.cols) :
    (problem.innerRows σ).card = min problem.rows problem.cols := by
  rcases le_total problem.rows problem.cols with hle | hle
  · have hrows : problem.innerRows σ = Finset.univ.filter fun row : Fin size =>
        (row : Nat) < problem.rows := by
      ext row
      have hcol := (σ row).isLt
      simp only [mem_innerRows_iff, isPadding_eq_false_iff, Finset.mem_filter, Finset.mem_univ,
        true_and]
      omega
    rw [hrows, Fin.card_filter_val_lt]
    omega
  · have hcols : (problem.innerRows σ).map σ.toEmbedding = Finset.univ.filter
        fun col : Fin size => (col : Nat) < problem.cols := by
      ext col
      have hrow := (σ.symm col).isLt
      simp only [Finset.mem_map_equiv, mem_innerRows_iff, isPadding_eq_false_iff,
        Equiv.apply_symm_apply, Finset.mem_filter, Finset.mem_univ, true_and]
      omega
    rw [← Finset.card_map σ.toEmbedding, hcols, Fin.card_filter_val_lt]
    omega

/-- Inside the matrix a permutation has as many cells as the smaller side. -/
theorem card_keptRows_add_card_strippedRows (hsize : size = max problem.rows problem.cols) :
    (problem.keptRows σ).card + (problem.strippedRows σ).card =
      min problem.rows problem.cols := by
  rw [← Finset.card_union_of_disjoint disjoint_keptRows_strippedRows,
    keptRows_union_strippedRows, card_innerRows hsize]

end Hungarian.Problem
