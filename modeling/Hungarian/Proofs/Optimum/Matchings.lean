import Mathlib.Data.Fintype.Sum
import Hungarian.Proofs.Problem.Normalize
import Hungarian.Proofs.Problem.Selection

/-!
# Matchings of the allowed cells

The answers that a matrix and its options allow, as sets of cells. The kept cells of a permutation
are such a set, and every such set is part of the kept cells of some permutation of the square.
-/

namespace Hungarian

variable {α : Type} {matrix : CostMatrix α} {options : Options α} {cells : Finset (Nat × Nat)}

namespace CostMatrix

/-- Cells of the matrix that are not forbidden, no two of them in one row or one column. -/
structure IsAllowedMatching (matrix : CostMatrix α) (options : Options α)
    (cells : Finset (Nat × Nat)) : Prop where
  inside : ∀ cell ∈ cells, cell.1 < matrix.rows ∧ cell.2 < matrix.cols
  allowed : ∀ cell ∈ cells, options.disallowed.contains cell.1 cell.2 = false
  rows_distinct : Set.InjOn Prod.fst (cells : Set (Nat × Nat))
  cols_distinct : Set.InjOn Prod.snd (cells : Set (Nat × Nat))

def matchingSizes (matrix : CostMatrix α) (options : Options α) : Set Nat :=
  { size | ∃ cells, matrix.IsAllowedMatching options cells ∧ cells.card = size }

structure IsMaximumMatching (matrix : CostMatrix α) (options : Options α)
    (cells : Finset (Nat × Nat)) : Prop extends matrix.IsAllowedMatching options cells where
  card_le : ∀ other, matrix.IsAllowedMatching options other → other.card ≤ cells.card

theorem IsMaximumMatching.isGreatest_card (h : matrix.IsMaximumMatching options cells) :
    IsGreatest (matrix.matchingSizes options) cells.card := by
  refine ⟨⟨cells, h.toIsAllowedMatching, rfl⟩, ?_⟩
  rintro size ⟨other, hother, rfl⟩
  exact h.card_le other hother

namespace IsAllowedMatching

variable (h : matrix.IsAllowedMatching options cells)

include h

/-- Cells of which no two share a row or a column are part of a permutation. -/
theorem exists_perm : ∃ τ : Equiv.Perm (Fin matrix.side),
    ∀ row col : Fin matrix.side, (row.val, col.val) ∈ cells → τ row = col := by
  classical
  have hpartners : ∀ row : Fin matrix.side, ∃ partner : Fin matrix.side,
      ∀ col : Fin matrix.side, (row.val, col.val) ∈ cells → partner = col := by
    intro row
    by_cases hcell : ∃ col : Fin matrix.side, (row.val, col.val) ∈ cells
    · obtain ⟨partner, hpartner⟩ := hcell
      refine ⟨partner, fun col hcol => ?_⟩
      have heq := h.rows_distinct hpartner hcol rfl
      exact Fin.ext (congrArg Prod.snd heq)
    · exact ⟨row, fun col hcol => absurd ⟨col, hcol⟩ hcell⟩
  choose partner hpartner using hpartners
  let taken : Finset (Fin matrix.side) :=
    Finset.univ.filter fun row => (row.val, (partner row).val) ∈ cells
  have hmem : ∀ row, row ∈ taken ↔ (row.val, (partner row).val) ∈ cells := by
    intro row
    simp [taken]
  have hinjective : Set.InjOn partner taken := by
    intro row hrow other hother heq
    have hcells := h.cols_distinct ((hmem row).mp hrow) ((hmem other).mp hother)
      (congrArg Fin.val heq)
    exact Fin.ext (congrArg Prod.fst hcells)
  obtain ⟨extension, hextension⟩ := Finset.exists_equiv_extend_of_card_eq
    (Finset.card_univ (α := Fin matrix.side)).symm (Finset.subset_univ _) hinjective
  refine ⟨extension.trans (Equiv.subtypeUnivEquiv Finset.mem_univ), fun row col hcell => ?_⟩
  have hcol := hpartner row col hcell
  have htaken : row ∈ taken := by
    rw [hmem, hcol]
    exact hcell
  exact (hextension row htaken).trans hcol

end IsAllowedMatching

end CostMatrix

namespace Problem.Frames

variable {problem : Problem α matrix.side} {σ : Equiv.Perm (Fin matrix.side)}

theorem isAllowedMatching_keptCells (h : problem.Frames matrix options) :
    matrix.IsAllowedMatching options (problem.keptCells σ) where
  inside cell hcell := by
    obtain ⟨row, hrow, hcol, hallowed⟩ := mem_keptCells_iff.mp hcell
    rw [← hrow, ← hcol]
    exact (h.isAllowed_iff.mp hallowed).1
  allowed cell hcell := by
    obtain ⟨row, hrow, hcol, hallowed⟩ := mem_keptCells_iff.mp hcell
    rw [← hrow, ← hcol]
    exact (h.isAllowed_iff.mp hallowed).2
  rows_distinct := by
    intro cell hcell other hother heq
    obtain ⟨row, hrow, hcol, -⟩ := mem_keptCells_iff.mp hcell
    obtain ⟨row', hrow', hcol', -⟩ := mem_keptCells_iff.mp hother
    obtain rfl : row = row' := Fin.ext (hrow.trans (heq.trans hrow'.symm))
    exact Prod.ext heq (hcol.symm.trans hcol')
  cols_distinct := by
    intro cell hcell other hother heq
    obtain ⟨row, hrow, hcol, -⟩ := mem_keptCells_iff.mp hcell
    obtain ⟨row', hrow', hcol', -⟩ := mem_keptCells_iff.mp hother
    obtain rfl : row = row' := σ.injective (Fin.ext (hcol.trans (heq.trans hcol'.symm)))
    exact Prod.ext (hrow.symm.trans hrow') heq

/-- Every allowed matching is kept by some permutation. -/
theorem exists_subset_keptCells (h : problem.Frames matrix options)
    (hcells : matrix.IsAllowedMatching options cells) : ∃ τ, cells ⊆ problem.keptCells τ := by
  obtain ⟨τ, hτ⟩ := hcells.exists_perm
  refine ⟨τ, fun cell hcell => ?_⟩
  have hinside := hcells.inside cell hcell
  have hrow : cell.1 < matrix.side := hinside.1.trans_le (le_max_left _ _)
  have hcol : cell.2 < matrix.side := hinside.2.trans_le (le_max_right _ _)
  have himage : τ ⟨cell.1, hrow⟩ = ⟨cell.2, hcol⟩ := hτ _ _ hcell
  refine mem_keptCells_iff.mpr ⟨⟨cell.1, hrow⟩, rfl, congrArg Fin.val himage, ?_⟩
  rw [himage, h.isAllowed_iff]
  exact ⟨hinside, hcells.allowed cell hcell⟩

end Problem.Frames

end Hungarian
