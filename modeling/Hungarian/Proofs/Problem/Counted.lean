import Hungarian.Proofs.Problem.Exact

/-!
# What the free cells cost

Over exact numbers a free cell costs its entry of the padded matrix when a minimum is sought, and
otherwise what its entry is short of the greatest one. Padding is an entry like any other, so that a
pad value above all costs of the matrix is the greatest entry.
-/

namespace Hungarian

open CostArithmetic

def Options.counted (options : Options ℚ) (top entry : ℚ) : ℚ :=
  if options.maximize then top - entry else entry

theorem Options.contains_eq_false {options : Options ℚ} (h : options.disallowed.toList = [])
    (row col : Nat) : options.disallowed.contains row col = false := by
  rw [← Bool.not_eq_true, ForbiddenPairs.contains_iff, h]
  exact List.not_mem_nil

theorem Options.counted_eq_add (options : Options ℚ) (top entry : ℚ) :
    options.counted top entry = (if options.maximize then top else 0) + options.sign * entry := by
  rw [counted, sign]
  split <;> ring

namespace CostMatrix

variable {matrix : CostMatrix ℚ} {padValue : ℚ}

def entries (matrix : CostMatrix ℚ) (padValue : ℚ) : Set ℚ :=
  { entry | ∃ row col : Fin matrix.side, matrix.gridCost padValue row col = entry }

theorem isGreatest_gridTop (hrows : 0 < matrix.rows) (padValue : ℚ) :
    IsGreatest (matrix.entries padValue) (matrix.gridTop padValue) := by
  have hmem : ∀ entry, entry ∈ (matrix.grid padValue).toList ↔ entry ∈ matrix.entries padValue := by
    intro entry
    rw [Square.mem_toList]
    exact exists₂_congr fun row col => by rw [grid, Square.get_ofFn]
  have hnonempty : (matrix.grid padValue).toList ≠ [] := by
    have hside : 0 < matrix.side := hrows.trans_le (Nat.le_max_left _ _)
    exact List.ne_nil_of_mem ((hmem _).mpr ⟨⟨0, hside⟩, ⟨0, hside⟩, rfl⟩)
  constructor
  · exact (hmem _).mp (greatest?_getD_mem hnonempty)
  · intro entry hentry
    exact le_greatest?_getD ((hmem entry).mpr hentry)

/-- A matrix no higher than it is wide is padded with whole rows. -/
theorem gridCost_of_wide (h : matrix.WellShaped) (hwide : matrix.rows ≤ matrix.cols)
    (row col : Fin matrix.side) : matrix.gridCost padValue row col =
      if (row : Nat) < matrix.rows then matrix.costAt (row, col) else padValue := by
  have hcol : (col : Nat) < matrix.cols := by
    have hlt : (col : Nat) < max matrix.rows matrix.cols := col.isLt
    omega
  split
  · next hrow => exact gridCost_of_inside h padValue hrow hcol
  · next hrow => exact gridCost_of_outside fun hinside => hrow hinside.1

end CostMatrix

namespace Problem

variable {matrix : CostMatrix ℚ} {options : Options ℚ} {problem : Problem ℚ matrix.side}
  {row col : Fin matrix.side}

theorem cost_eq_counted (hshaped : matrix.WellShaped)
    (hproblem : normalize matrix options = .ok problem)
    (hfree : problem.isForbidden row col = false) :
    problem.cost row col = options.counted (matrix.gridTop options.padValue)
      (matrix.gridCost options.padValue row col) := by
  have hcell : options.disallowed.contains row col = false := by
    rw [← (frames_of_normalize hproblem).isForbidden_eq, hfree]
  rw [cost_eq_of_normalize hshaped hproblem, if_neg (by simp [hcell]), CostMatrix.countedCost,
    Options.counted]

theorem cost_eq_of_isPadding (haccepts : matrix.Accepts options)
    (hproblem : normalize matrix options = .ok problem)
    (hpadding : problem.isPadding row col = true) :
    problem.cost row col =
      options.counted (matrix.gridTop options.padValue) options.padValue := by
  have hrepresents := represents_of_normalize haccepts hproblem
  have hfree : problem.isForbidden row col = false := by
    by_contra hforbidden
    have hinside := hrepresents.forbidden_inside row col (Bool.not_eq_false _ ▸ hforbidden)
    rw [hpadding] at hinside
    exact absurd hinside (by simp)
  have houtside : ¬(row < matrix.rows ∧ col < matrix.cols) := by
    rw [← hrepresents.frames.rows_eq, ← hrepresents.frames.cols_eq, ← isPadding_eq_false_iff,
      hpadding]
    simp
  rw [cost_eq_counted haccepts.wellShaped hproblem hfree, CostMatrix.gridCost_of_outside houtside]

/-- Without forbidden cells, a matrix no higher than it is wide costs its own entries in its own
rows and the pad value in the others, up to a sign and a shift. -/
theorem exists_cost_eq_of_wide (hshaped : matrix.WellShaped) (hwide : matrix.rows ≤ matrix.cols)
    (hfree : options.disallowed.toList = [])
    (hproblem : normalize matrix options = .ok problem) :
    ∃ base : ℚ, ∀ row col : Fin matrix.side, problem.cost row col = base + options.sign *
      (if (row : Nat) < matrix.rows then matrix.costAt (row, col) else options.padValue) := by
  refine ⟨if options.maximize then matrix.gridTop options.padValue else 0, fun row col => ?_⟩
  have hcell : problem.isForbidden row col = false := by
    rw [(frames_of_normalize hproblem).isForbidden_eq, Options.contains_eq_false hfree]
  rw [cost_eq_counted hshaped hproblem hcell, Options.counted_eq_add,
    CostMatrix.gridCost_of_wide hshaped hwide]

end Problem

end Hungarian
