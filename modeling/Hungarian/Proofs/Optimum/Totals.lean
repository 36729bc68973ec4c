import Hungarian.Proofs.Optimum.Matchings
import Hungarian.Proofs.Problem.Exact

/-!
# The best total of a maximum matching

Over exact numbers a permutation that is less than one from the cheapest keeps a maximum matching,
and the total of what it keeps is no further from the best total than the permutation is from the
cheapest one. Padding plays no part in this, since every permutation selects equally much of it.
-/

namespace Hungarian

def Options.IsBest (options : Options ℚ) (totals : Set ℚ) (best : ℚ) : Prop :=
  if options.maximize then IsGreatest totals best else IsLeast totals best

namespace CostMatrix

def totalOver (matrix : CostMatrix ℚ) (cells : Finset (Nat × Nat)) : ℚ :=
  ∑ cell ∈ cells, matrix.costAt cell

def maximumTotals (matrix : CostMatrix ℚ) (options : Options ℚ) : Set ℚ :=
  { total | ∃ cells, matrix.IsMaximumMatching options cells ∧ matrix.totalOver cells = total }

end CostMatrix

namespace Options

variable {options : Options ℚ} {totals : Set ℚ} {best : ℚ}

theorem isBest_iff : options.IsBest totals best ↔
    best ∈ totals ∧ ∀ total ∈ totals, options.sign * best ≤ options.sign * total := by
  rw [IsBest, sign]
  by_cases hmaximize : options.maximize
  · rw [if_pos hmaximize, if_pos hmaximize]
    simp only [neg_one_mul, neg_le_neg_iff]
    exact Iff.rfl
  · rw [if_neg hmaximize, if_neg hmaximize]
    simp only [one_mul]
    exact Iff.rfl

theorem abs_sign_mul (options : Options ℚ) (total : ℚ) : |options.sign * total| = |total| := by
  rw [sign]
  split
  · rw [neg_one_mul, abs_neg]
  · rw [one_mul]

end Options

namespace Problem

variable {matrix : CostMatrix ℚ} {options : Options ℚ} {problem : Problem ℚ matrix.side}
  {cells : Finset (Nat × Nat)} {σ τ : Equiv.Perm (Fin matrix.side)} {error : ℚ}

theorem totalOver_keptCells :
    matrix.totalOver (problem.keptCells σ) =
      ∑ row ∈ problem.keptRows σ, matrix.costAt (row, σ row) := by
  rw [CostMatrix.totalOver, keptCells, Finset.sum_image]
  intro row _ other _ heq
  exact Fin.ext (congrArg Prod.fst heq)

namespace Represents

variable (h : problem.Represents matrix options)

include h

section Shift

variable {shift : ℚ} (hshift : ∀ row col, problem.isForbidden row col = false →
  problem.cost row col = shift + options.sign * matrix.gridCost options.padValue row col)

include hshift

/-- What each part of the square costs beyond padding. -/
theorem cost_eq_padding_add (row col : Fin matrix.side) :
    problem.cost row col = shift + options.sign * options.padValue +
      (if problem.isAllowed row col then
        options.sign * matrix.costAt (row, col) - options.sign * options.padValue else 0) +
      (if !problem.isPadding row col && problem.isForbidden row col then
        problem.sentinel - (shift + options.sign * options.padValue) else 0) := by
  obtain ⟨low, high, happart⟩ := h.setsApart
  by_cases hforbidden : problem.isForbidden row col
  · have hinside := h.forbidden_inside row col hforbidden
    rw [happart.cost_eq_sentinel row col hforbidden, if_neg (by simp [isAllowed, hforbidden]),
      if_pos (by simp [hinside, hforbidden])]
    ring
  · rw [Bool.not_eq_true] at hforbidden
    have hnot : ¬(!problem.isPadding row col && problem.isForbidden row col) = true := by
      simp [hforbidden]
    rw [hshift row col hforbidden, if_neg hnot]
    by_cases hinside : (row : Nat) < matrix.rows ∧ (col : Nat) < matrix.cols
    · have hallowed : problem.isAllowed row col := by
        rw [h.frames.isAllowed_iff, ← h.frames.isForbidden_eq]
        exact ⟨hinside, hforbidden⟩
      rw [CostMatrix.gridCost_of_inside h.wellShaped _ hinside.1 hinside.2, if_pos hallowed]
      ring
    · have hnotAllowed : ¬problem.isAllowed row col := fun hallowed =>
        hinside (h.frames.isAllowed_iff.mp hallowed).1
      rw [CostMatrix.gridCost_of_outside hinside, if_neg hnotAllowed]
      ring

/-- What a permutation costs depends on the cells that it keeps and on the numbers of its kept, its
stripped and its padding cells. -/
theorem totalCost_eq (σ : Equiv.Perm (Fin matrix.side)) : problem.totalCost σ =
    shift * (problem.keptRows σ).card + options.sign * matrix.totalOver (problem.keptCells σ) +
      (shift + options.sign * options.padValue) *
        (matrix.side - (min matrix.rows matrix.cols : Nat)) +
      problem.sentinel * (problem.strippedRows σ).card := by
  have hcount : ((problem.keptRows σ).card : ℚ) + (problem.strippedRows σ).card =
      (min matrix.rows matrix.cols : Nat) := by
    have hcard := card_keptRows_add_card_strippedRows (σ := σ) h.frames.size_eq
    rw [h.frames.rows_eq, h.frames.cols_eq] at hcard
    exact_mod_cast hcard
  rw [totalOver_keptCells, totalCost, Finset.mul_sum, ← hcount]
  calc ∑ row, problem.cost row (σ row)
      = ∑ _row : Fin matrix.side, (shift + options.sign * options.padValue) +
          ∑ row ∈ problem.keptRows σ,
            (options.sign * matrix.costAt (row, σ row) - options.sign * options.padValue) +
          ∑ _row ∈ problem.strippedRows σ,
            (problem.sentinel - (shift + options.sign * options.padValue)) := by
        rw [keptRows, strippedRows, Finset.sum_filter, Finset.sum_filter,
          ← Finset.sum_add_distrib, ← Finset.sum_add_distrib]
        exact Finset.sum_congr rfl fun row _ => h.cost_eq_padding_add hshift row (σ row)
    _ = _ := by
        rw [Finset.sum_sub_distrib, Finset.sum_const, Finset.sum_const, Finset.sum_const,
          Finset.card_univ, Fintype.card_fin, nsmul_eq_mul, nsmul_eq_mul, nsmul_eq_mul]
        ring

end Shift

/-- Of the places in the matrix, a permutation uses as many as the smaller side has. -/
theorem card_kept_add_card_forbidden (σ : Equiv.Perm (Fin matrix.side)) :
    (problem.keptRows σ).card + (problem.forbiddenRows σ).card =
      min matrix.rows matrix.cols := by
  rw [← strippedRows_eq_forbiddenRows h.forbidden_inside,
    card_keptRows_add_card_strippedRows h.frames.size_eq, h.frames.rows_eq, h.frames.cols_eq]

/-- With as many kept cells, two permutations differ by what the caller pays. -/
theorem totalCost_sub_totalCost (hcard : (problem.keptRows σ).card = (problem.keptRows τ).card) :
    problem.totalCost σ - problem.totalCost τ = options.sign *
      matrix.totalOver (problem.keptCells σ) -
        options.sign * matrix.totalOver (problem.keptCells τ) := by
  obtain ⟨shift, hshift⟩ := h.shifts
  have hstripped : (problem.strippedRows σ).card = (problem.strippedRows τ).card := by
    have hfirst := h.card_kept_add_card_forbidden σ
    have hsecond := h.card_kept_add_card_forbidden τ
    rw [strippedRows_eq_forbiddenRows h.forbidden_inside,
      strippedRows_eq_forbiddenRows h.forbidden_inside]
    omega
  rw [h.totalCost_eq hshift, h.totalCost_eq hshift, hcard, hstripped]
  ring

/-- Less than one from the cheapest permutation, nothing is forbidden that could be allowed. -/
theorem isMaximumMatching_keptCells (herror : error < 1)
    (hnear : ∀ τ, problem.totalCost σ ≤ problem.totalCost τ + error) :
    matrix.IsMaximumMatching options (problem.keptCells σ) where
  toIsAllowedMatching := h.frames.isAllowedMatching_keptCells
  card_le := by
    intro cells hcells
    obtain ⟨τ, hsubset⟩ := h.frames.exists_subset_keptCells hcells
    obtain ⟨low, high, happart⟩ := h.setsApart
    by_contra hless
    have hle := Finset.card_le_card hsubset
    have hfirst := h.card_kept_add_card_forbidden σ
    have hsecond := h.card_kept_add_card_forbidden τ
    rw [card_keptCells] at hless hle
    have hgap : problem.totalCost τ + 1 ≤ problem.totalCost σ :=
      happart.totalCost_add_one_le (by omega)
    have hbound := hnear τ
    linarith

/-- A permutation that is nearly the cheapest keeps a matching that is nearly the best. -/
theorem sign_mul_totalOver_le (hσ : matrix.IsMaximumMatching options (problem.keptCells σ))
    (hnear : ∀ τ, problem.totalCost σ ≤ problem.totalCost τ + error)
    (hcells : matrix.IsMaximumMatching options cells) :
    options.sign * matrix.totalOver (problem.keptCells σ) ≤
      options.sign * matrix.totalOver cells + error := by
  obtain ⟨τ, hsubset⟩ := h.frames.exists_subset_keptCells hcells.toIsAllowedMatching
  have hkept : matrix.IsAllowedMatching options (problem.keptCells τ) :=
    h.frames.isAllowedMatching_keptCells
  have hcells_eq : cells = problem.keptCells τ :=
    Finset.eq_of_subset_of_card_le hsubset (hcells.card_le _ hkept)
  have hcard : (problem.keptRows σ).card = (problem.keptRows τ).card := by
    have hle := hσ.card_le _ hkept
    have hge := hcells.card_le _ hσ.toIsAllowedMatching
    rw [hcells_eq] at hge
    rw [card_keptCells, card_keptCells] at hle hge
    omega
  have hsub := h.totalCost_sub_totalCost hcard
  have hbound := hnear τ
  rw [hcells_eq]
  linarith

theorem isBest_totalOver (hcheapest : ∀ τ, problem.totalCost σ ≤ problem.totalCost τ) :
    options.IsBest (matrix.maximumTotals options) (matrix.totalOver (problem.keptCells σ)) := by
  have hnear : ∀ τ, problem.totalCost σ ≤ problem.totalCost τ + 0 := by
    intro τ
    rw [add_zero]
    exact hcheapest τ
  have hmaximum := h.isMaximumMatching_keptCells zero_lt_one hnear
  refine Options.isBest_iff.mpr ⟨⟨_, hmaximum, rfl⟩, ?_⟩
  rintro total ⟨cells, hcells, rfl⟩
  have hle := h.sign_mul_totalOver_le hmaximum hnear hcells
  rwa [add_zero] at hle

theorem exists_isBest_near (herror : error < 1)
    (hnear : ∀ τ, problem.totalCost σ ≤ problem.totalCost τ + error) :
    ∃ best, options.IsBest (matrix.maximumTotals options) best ∧
      |matrix.totalOver (problem.keptCells σ) - best| ≤ error := by
  obtain ⟨τ, hτ⟩ := Finite.exists_min problem.totalCost
  have hbest := h.isBest_totalOver hτ
  refine ⟨_, hbest, ?_⟩
  have hσ := h.isMaximumMatching_keptCells herror hnear
  have hnonneg : 0 ≤ error := by
    have hself := hnear σ
    linarith
  have habove : options.sign * matrix.totalOver (problem.keptCells τ) ≤
      options.sign * matrix.totalOver (problem.keptCells σ) :=
    (Options.isBest_iff.mp hbest).2 _ ⟨_, hσ, rfl⟩
  have hmaximum := h.isMaximumMatching_keptCells herror fun other =>
    (hτ other).trans (le_add_of_nonneg_right hnonneg)
  have hbelow := h.sign_mul_totalOver_le hσ hnear hmaximum
  rw [← options.abs_sign_mul, mul_sub, abs_le]
  constructor <;> linarith

end Represents

end Problem

end Hungarian
