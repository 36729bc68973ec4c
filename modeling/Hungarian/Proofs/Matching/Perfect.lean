import Mathlib.Data.Fintype.EquivFin
import Hungarian.Proofs.Matching.Augment

/-!
# Perfect matchings

A consistent matching of all rows is a permutation of the indices, and is read as one from here on.
-/

namespace Hungarian.Matching

variable {size : Nat} {matching : Matching size} {σ : Equiv.Perm (Fin size)} {row col : Fin size}

/-- The matching takes every row to its image under a permutation, and every column back. -/
structure Realizes (matching : Matching size) (σ : Equiv.Perm (Fin size)) : Prop where
  colOf_eq : ∀ row, matching.colOf row = some (σ row)
  rowOf_eq : ∀ col, matching.rowOf col = some (σ.symm col)

theorem isSome_colOf_of_count_eq (h : matching.count = size) (row : Fin size) :
    (matching.colOf row).isSome := by
  have hcard : (Finset.univ.filter fun row => (matching.colOf row).isSome).card =
      Fintype.card (Fin size) := by
    rw [← count_eq_card, h, Fintype.card_fin]
  have huniv := (Finset.card_eq_iff_eq_univ _).mp hcard
  have hmem := Finset.mem_univ row
  rw [← huniv, Finset.mem_filter] at hmem
  exact hmem.2

theorem Consistent.exists_realizes (h : matching.Consistent) (hcount : matching.count = size) :
    ∃ σ, matching.Realizes σ := by
  have hcol : ∀ row, ∃ col, matching.colOf row = some col := fun row =>
    Option.isSome_iff_exists.mp (isSome_colOf_of_count_eq hcount row)
  choose partner hpartner using hcol
  have hinjective : Function.Injective partner := by
    intro row other heq
    exact h.row_unique (hpartner row) (heq ▸ hpartner other)
  let σ := Equiv.ofBijective partner (Finite.injective_iff_bijective.mp hinjective)
  refine ⟨σ, hpartner, fun col => ?_⟩
  have himage : partner (σ.symm col) = col := σ.apply_symm_apply col
  rw [← h, hpartner, himage]

/-- As long as a row is free, a column is. -/
theorem Consistent.exists_free_col (h : matching.Consistent) (hrow : matching.colOf row = none) :
    ∃ col, matching.rowOf col = none := by
  by_contra hnone
  have hmatched : ∀ col, ∃ row, matching.rowOf col = some row := fun col =>
    Option.ne_none_iff_exists'.mp fun hfree => hnone ⟨col, hfree⟩
  choose partner hpartner using hmatched
  have hinjective : Function.Injective partner := by
    intro col other heq
    have hcol := (h (partner col) col).mpr (hpartner col)
    have hother := (h (partner other) other).mpr (hpartner other)
    rw [heq, hother] at hcol
    exact (Option.some.inj hcol).symm
  obtain ⟨col, hcol⟩ := Finite.surjective_of_injective hinjective row
  have hpaired := (h (partner col) col).mpr (hpartner col)
  rw [hcol, hrow] at hpaired
  exact absurd hpaired (by simp)

namespace Realizes

variable (h : matching.Realizes σ)

include h

theorem consistent : matching.Consistent := by
  intro row col
  rw [h.colOf_eq, h.rowOf_eq, Option.some.injEq, Option.some.injEq, Equiv.symm_apply_eq]
  exact eq_comm

theorem mem_pairs_iff : (row, col) ∈ matching.pairs ↔ σ row = col := by
  rw [mem_pairs, h.colOf_eq, Option.some.injEq]

theorem pairs_eq : matching.pairs = (List.finRange size).map fun row => (row, σ row) := by
  simp [pairs, h.colOf_eq]

theorem count_eq : matching.count = size := by
  simp [count, h.colOf_eq]

theorem unique {τ : Equiv.Perm (Fin size)} (hτ : matching.Realizes τ) : σ = τ := by
  apply Equiv.ext
  intro row
  exact Option.some.inj ((h.colOf_eq row).symm.trans (hτ.colOf_eq row))

end Realizes

end Hungarian.Matching
