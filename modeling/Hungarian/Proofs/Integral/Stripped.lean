import Hungarian.Proofs.Integral.Answer

/-!
# Forbidden pairs in double precision

The sentinel outweighs the free cells by one. Over whole costs that fit, this one is not lost to
rounding, so that a solve in double precision strips no pair as long as there is another way. Above
two to the power of 53 it is lost.
-/

namespace Hungarian

open CostArithmetic

variable {entries : CostMatrix ℤ} {options : Options ℤ} {bound : Nat} {tolerance : Float}
  {cells : Finset (Nat × Nat)}

theorem CostMatrix.IsAllowedMatching.map {α β : Type} {matrix : CostMatrix α} {options : Options α}
    (h : matrix.IsAllowedMatching options cells) (f : α → β) (tolerance : β) :
    (matrix.map f).IsAllowedMatching (options.map f tolerance) cells :=
  ⟨h.inside, h.allowed, h.rows_distinct, h.cols_distinct⟩

/-- An exact answer strips no pair where the smaller side can be covered without one. -/
theorem Assignment.Shows.stripped_eq_nil {matrix : CostMatrix ℚ} {options : Options ℚ}
    {problem : Problem ℚ matrix.side} {σ : Equiv.Perm (Fin matrix.side)} {assignment : Assignment ℚ}
    (h : assignment.Shows problem σ)
    (hmaximum : matrix.IsMaximumMatching options (problem.keptCells σ))
    (hcells : matrix.IsAllowedMatching options cells)
    (hcard : cells.card = min matrix.rows matrix.cols) : assignment.stripped = [] := by
  have hle := hmaximum.card_le cells hcells
  have hcount := h.count_eq
  rw [h.card_keptCells, hcard] at hle
  rw [← List.length_eq_zero_iff]
  omega

/-- **The sentinel keeps its margin over whole costs.** As long as sentinels fit, a solve in double
precision strips no pair where the smaller side can be covered without one. -/
theorem exists_solve_stripped_eq_nil (h : entries.FitsDouble options bound)
    (hnonneg : 0 ≤ tolerance) (hless : tolerance < 1)
    (hcells : entries.IsAllowedMatching options cells)
    (hcard : cells.card = min entries.rows entries.cols) :
    ∃ assignment, solve (entries.map Float.ofInt) (options.map Float.ofInt tolerance) =
      .ok assignment ∧ assignment.stripped = [] := by
  obtain ⟨searches, assignment, ⟨-, -, -, -, -, hexact⟩, -, -, -, -, -, hsolve⟩ :=
    h.exists_runs hnonneg hless le_rfl zero_lt_one
  refine ⟨_, hsolve, ?_⟩
  have hmatrix := h.isIntegral (le_refl (0 : ℚ)) zero_lt_one
  obtain ⟨answer, problem, stage, σ, hsolve', hrepresents, hbalanced, hσ, hshows⟩ :=
    hmatrix.toAccepts.exists_solve_eq_ok
  obtain rfl := Except.ok.inj (hexact.symm.trans hsolve')
  have hmaximum : (entries.map (Int.cast : ℤ → ℚ)).IsMaximumMatching (options.map Int.cast 0)
      (problem.keptCells σ) := by
    apply hrepresents.isMaximumMatching_keptCells zero_lt_one
    intro τ
    have htotal := hbalanced.totalCost_le_totalCost_add hσ τ
    have hepsilon : problem.epsilon = 0 := hrepresents.frames.epsilon_eq
    rw [hepsilon, mul_zero] at htotal
    linarith
  exact hshows.stripped_eq_nil hmaximum (hcells.map _ _) hcard

def crossing : Finset (Nat × Nat) := {(0, 1), (1, 0)}

theorem isAllowedMatching_crossing {α : Type} {matrix : CostMatrix α} {options : Options α}
    (hrows : 2 ≤ matrix.rows) (hcols : 2 ≤ matrix.cols)
    (hallowed : options.disallowed.contains 0 1 = false)
    (hallowed' : options.disallowed.contains 1 0 = false) :
    matrix.IsAllowedMatching options crossing where
  inside := by
    intro cell hcell
    rcases List.mem_pair.mp (Finset.mem_val.mpr hcell) with rfl | rfl
    · exact ⟨by omega, by omega⟩
    · exact ⟨by omega, by omega⟩
  allowed := by
    intro cell hcell
    rcases List.mem_pair.mp (Finset.mem_val.mpr hcell) with rfl | rfl
    · exact hallowed
    · exact hallowed'
  rows_distinct := by
    intro cell hcell other hother
    rcases List.mem_pair.mp (Finset.mem_val.mpr hcell) with rfl | rfl <;>
      rcases List.mem_pair.mp (Finset.mem_val.mpr hother) with rfl | rfl <;> simp
  cols_distinct := by
    intro cell hcell other hother
    rcases List.mem_pair.mp (Finset.mem_val.mpr hcell) with rfl | rfl <;>
      rcases List.mem_pair.mp (Finset.mem_val.mpr hother) with rfl | rfl <;> simp

def lured : CostMatrix ℤ where
  data := #[-7, 4, 6, -5]
  rows := 2
  cols := 2

def luredOptions : Options ℤ where
  maximize := false
  disallowed := .ofList [(0, .ofList [0])]
  padValue := 0
  tolerance := 0

/-- The cheaper diagonal is given up for the one that nothing forbids. -/
theorem exists_solve_lured : lured.FitsDouble luredOptions 7 ∧ (0 : Float) ≤ 0.25 ∧
    (0.25 : Float) < 1 ∧ lured.IsAllowedMatching luredOptions crossing ∧
    crossing.card = min lured.rows lured.cols ∧
    ∃ assignment, solve (lured.map Float.ofInt) (luredOptions.map Float.ofInt 0.25) =
      .ok assignment ∧ assignment.stripped = [] := by
  have hfits : lured.FitsDouble luredOptions 7 :=
    { wellShaped := by decide
      rows_pos := by decide
      cols_pos := by decide
      inside := by decide
      data_le := by decide
      padValue_le := by decide
      bound_le := by decide }
  have hnonneg : (0 : Float) ≤ 0.25 := by decide +kernel
  have hless : (0.25 : Float) < 1 := by decide +kernel
  have hcells : lured.IsAllowedMatching luredOptions crossing :=
    isAllowedMatching_crossing (by decide) (by decide) (by decide) (by decide)
  exact ⟨hfits, hnonneg, hless, hcells, rfl,
    exists_solve_stripped_eq_nil hfits hnonneg hless hcells rfl⟩

def heavy : CostMatrix Float where
  data := #[1e17, 1e17, 1e17, 1e17]
  rows := 2
  cols := 2

def heavyOptions : Options Float where
  maximize := false
  disallowed := .ofList [(0, .ofList [0])]
  padValue := 0
  tolerance := 0

/-- The sentinel is no higher than the costs, and the first permutation is taken. -/
theorem solve_heavy : heavy.WellShaped ∧
    (∃ problem, Problem.normalize heavy heavyOptions = .ok problem) ∧
    heavyOptions.tolerance = 0 ∧ heavy.IsAllowedMatching heavyOptions crossing ∧
    crossing.card = min heavy.rows heavy.cols ∧
    ∃ assignment, solve heavy heavyOptions = .ok assignment ∧
      assignment.stripped = [(0, 0)] := by
  have hsolve : (solve heavy heavyOptions).toOption.any (fun assignment =>
      assignment.stripped = [(0, 0)]) = true := by decide +kernel
  obtain ⟨assignment, hok, hstripped⟩ := exists_ok_of_any hsolve
  obtain ⟨problem, -, hproblem, -⟩ := solve_eq_ok_iff.mp hok
  exact ⟨by decide, ⟨problem, hproblem⟩, rfl,
    isAllowedMatching_crossing (by decide) (by decide) (by decide) (by decide), rfl, assignment,
    hok, of_decide_eq_true hstripped⟩

end Hungarian
