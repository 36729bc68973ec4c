import Hungarian.Proofs.Assignment.Soundness
import Hungarian.Proofs.Optimum.Totals
import Hungarian.Proofs.Stage.Balanced

/-!
# Answers over exact numbers

Every accepted matrix has an answer. Its pairs are the kept cells of a permutation that is as near
to the cheapest one as the tolerance allows, and its certificate fails only where a pair was
stripped.
-/

namespace Hungarian

open CostArithmetic

namespace Solution

section Certificate

variable {size : Nat} {problem : Problem ℚ size} {solution : Solution ℚ size}
  {σ : Equiv.Perm (Fin size)}

/-- Potentials that support a perfect matching certify it. -/
theorem isCertified_of_supports (hnonneg : 0 ≤ problem.epsilon)
    (hσ : solution.matching.Realizes σ)
    (h : solution.potentials.Supports problem solution.matching) :
    solution.isCertified problem = true := by
  have htight : (solution.matching.pairs.all fun cell =>
      solution.potentials.isTight problem cell.1 cell.2) = true := by
    rw [List.all_eq_true]
    rintro ⟨row, col⟩ hpair
    exact h.feasible.isTight (h.matched_near row col (Matching.mem_pairs.mp hpair))
  have hcount : (solution.matching.count == size) = true := beq_iff_eq.mpr hσ.count_eq
  rw [isCertified, h.feasible.isFeasible hnonneg, htight, hcount]
  rfl

end Certificate

variable {matrix : CostMatrix ℚ} {options : Options ℚ} {problem : Problem ℚ matrix.side}
  {solution : Solution ℚ matrix.side} {σ : Equiv.Perm (Fin matrix.side)}

theorem total_kept (h : solution.matching.Realizes σ) :
    total ((solution.kept problem).map fun cell => matrix.costAt (cell.1, cell.2)) =
      matrix.totalOver (problem.keptCells σ) := by
  rw [total_eq_sum, kept, h.pairs_eq, List.filter_map, List.map_map,
    Problem.totalOver_keptCells, Problem.keptRows, Finset.sum_eq_multiset_sum,
    Matching.val_filter_univ, Multiset.map_coe, Multiset.sum_coe]
  rfl

theorem costOf_kept (hσ : solution.matching.Realizes σ) (hshaped : matrix.WellShaped)
    (hframes : problem.Frames matrix options) :
    costOf matrix (solution.kept problem) = .ok (matrix.totalOver (problem.keptCells σ)) := by
  rw [← total_kept hσ]
  apply costOf_eq
  intro cell hcell
  obtain ⟨hrow, hcol⟩ := inside_of_mem_kept hframes hcell
  exact CostMatrix.get?_eq_some_costAt hshaped hrow hcol

end Solution

variable {matrix : CostMatrix ℚ} {options : Options ℚ} {problem : Problem ℚ matrix.side}
  {σ : Equiv.Perm (Fin matrix.side)} {assignment : Assignment ℚ}

structure Assignment.Shows (problem : Problem ℚ matrix.side) (σ : Equiv.Perm (Fin matrix.side))
    (assignment : Assignment ℚ) : Prop where
  pairs_eq : assignment.pairs.toFinset = problem.keptCells σ
  cost_eq : assignment.cost = matrix.totalOver (problem.keptCells σ)
  count_eq : assignment.assignedCount + assignment.stripped.length =
    min matrix.rows matrix.cols
  isOptimal_iff : assignment.isOptimal = true ↔ assignment.stripped = []

theorem Assignment.Shows.card_keptCells (h : assignment.Shows problem σ) :
    (problem.keptCells σ).card = assignment.assignedCount := by
  rw [← h.pairs_eq, List.toFinset_card_of_nodup assignment.nodup_pairs, assignment.length_pairs]

theorem Stage.Balanced.exists_extract_eq_ok {stage : Stage ℚ matrix.side} {count : Nat}
    (h : stage.Balanced problem count) (hnonneg : 0 ≤ problem.epsilon)
    (hσ : stage.matching.Realizes σ) (hshaped : matrix.WellShaped)
    (hframes : problem.Frames matrix options) :
    ∃ assignment, stage.solution.extract matrix problem = .ok assignment ∧
      assignment.Shows problem σ := by
  have hσ' : stage.solution.matching.Realizes σ := hσ
  refine ⟨_, Solution.extract_eq_ok_iff.mpr ⟨_, Solution.costOf_kept hσ' hshaped hframes, rfl⟩,
    Solution.toFinset_pairs_toAssignment hσ', rfl, Solution.count_toAssignment hσ' hframes, ?_⟩
  have hcertified : stage.solution.isCertified problem = true :=
    Solution.isCertified_of_supports hnonneg hσ' h.supports
  rw [Solution.toAssignment, hcertified, Bool.and_true, List.isEmpty_iff]
  exact List.map_eq_nil_iff.symm

structure Answers (matrix : CostMatrix ℚ) (options : Options ℚ) (problem : Problem ℚ matrix.side)
    (stage : Stage ℚ matrix.side) (σ : Equiv.Perm (Fin matrix.side)) (assignment : Assignment ℚ) :
    Prop where
  normalize_eq : Problem.normalize matrix options = .ok problem
  final_eq : Stage.final problem = (stage, .ok ())
  extract_eq : stage.solution.extract matrix problem = .ok assignment
  balanced : stage.Balanced problem matrix.side
  realizes : stage.matching.Realizes σ
  shows : assignment.Shows problem σ

namespace Answers

variable {stage : Stage ℚ matrix.side} (h : Answers matrix options problem stage σ assignment)

include h

theorem runs : Runs matrix options stage.searches assignment := by
  refine ⟨problem, stage, h.normalize_eq, h.final_eq, rfl, ?_⟩
  exact solve_eq_ok_iff.mpr ⟨problem, stage, h.normalize_eq, h.final_eq, h.extract_eq⟩

theorem exists_toAssignment_eq :
    ∃ cost, stage.solution.toAssignment problem cost = assignment := by
  obtain ⟨cost, -, hassignment⟩ := Solution.extract_eq_ok_iff.mp h.extract_eq
  exact ⟨cost, hassignment⟩

theorem dualBound_eq : assignment.dualBound = stage.solution.potentials.dualObjective := by
  obtain ⟨cost, rfl⟩ := h.exists_toAssignment_eq
  rfl

end Answers

theorem CostMatrix.Accepts.exists_answers (h : matrix.Accepts options) :
    ∃ problem stage σ assignment, Answers matrix options problem stage σ assignment := by
  obtain ⟨problem, hproblem⟩ := Problem.exists_normalize_eq_ok h
  have hframes := Problem.frames_of_normalize hproblem
  have hnonneg : 0 ≤ problem.epsilon := by
    rw [hframes.epsilon_eq]
    exact h.tolerance_nonneg
  obtain ⟨stage, hfinal, hbalanced⟩ := Stage.exists_final_eq_ok hnonneg
  obtain ⟨σ, hσ⟩ := Stage.exists_realizes_of_final hfinal
  obtain ⟨assignment, hextract, hshows⟩ :=
    hbalanced.exists_extract_eq_ok hnonneg hσ h.wellShaped hframes
  exact ⟨problem, stage, σ, assignment, hproblem, hfinal, hextract, hbalanced, hσ, hshows⟩

/-- Accepted input is always answered. -/
theorem CostMatrix.Accepts.exists_solve_eq_ok (h : matrix.Accepts options) :
    ∃ (assignment : Assignment ℚ) (problem : Problem ℚ matrix.side)
      (stage : Stage ℚ matrix.side) (σ : Equiv.Perm (Fin matrix.side)),
      solve matrix options = .ok assignment ∧ problem.Represents matrix options ∧
      stage.Balanced problem matrix.side ∧ stage.matching.Realizes σ ∧
      assignment.Shows problem σ := by
  obtain ⟨problem, stage, σ, assignment, hanswers⟩ := h.exists_answers
  obtain ⟨-, -, -, -, -, hsolve⟩ := hanswers.runs
  exact ⟨assignment, problem, stage, σ, hsolve,
    Problem.represents_of_normalize h hanswers.normalize_eq, hanswers.balanced, hanswers.realizes,
    hanswers.shows⟩

/-- **Forbidden pairs only where they are unavoidable.** With a tolerance of less than one over the
whole side, an answer assigns as many allowed pairs as can be assigned together, it is certified
where that is the whole smaller side, and its cost is as near to the best one as the tolerance
allows. -/
theorem exists_solve_near_best (h : matrix.Accepts options)
    (htolerance : matrix.side * options.tolerance < 1) :
    ∃ assignment best, solve matrix options = .ok assignment ∧
      IsGreatest (matrix.matchingSizes options) assignment.assignedCount ∧
      assignment.assignedCount + assignment.stripped.length = min matrix.rows matrix.cols ∧
      (assignment.isOptimal = true ↔
        assignment.assignedCount = min matrix.rows matrix.cols) ∧
      options.IsBest (matrix.maximumTotals options) best ∧
      |assignment.cost - best| ≤ matrix.side * options.tolerance := by
  obtain ⟨assignment, problem, stage, σ, hsolve, hrepresents, hbalanced, hσ, hshows⟩ :=
    h.exists_solve_eq_ok
  have hnear : ∀ τ, problem.totalCost σ ≤
      problem.totalCost τ + matrix.side * options.tolerance := by
    intro τ
    rw [← hrepresents.frames.epsilon_eq]
    exact hbalanced.totalCost_le_totalCost_add hσ τ
  have hmaximum := hrepresents.isMaximumMatching_keptCells htolerance hnear
  obtain ⟨best, hbest, hdistance⟩ := hrepresents.exists_isBest_near htolerance hnear
  refine ⟨assignment, best, hsolve, ?_, hshows.count_eq, ?_, hbest, ?_⟩
  · rw [← hshows.card_keptCells]
    exact hmaximum.isGreatest_card
  · have hcount := hshows.count_eq
    rw [hshows.isOptimal_iff, ← List.length_eq_zero_iff]
    omega
  · rw [hshows.cost_eq]
    exact hdistance

def blocked : CostMatrix ℚ where
  data := #[3 / 2, -2, 4, 1, 0, 5 / 2]
  rows := 2
  cols := 3

def blockedOptions : Options ℚ where
  maximize := true
  disallowed := .ofList [(1, .ofList [0, 1, 2])]
  padValue := -7 / 2
  tolerance := 1 / 4

theorem accepts_blocked : blocked.Accepts blockedOptions where
  wellShaped := by decide
  rows_pos := by decide
  cols_pos := by decide
  inside := by decide
  tolerance_nonneg := by decide +kernel

/-- A maximum over a wide table, whose second row is forbidden throughout. -/
theorem exists_solve_blocked_near_best : blocked.Accepts blockedOptions ∧
    blocked.side * blockedOptions.tolerance < 1 ∧
    ∃ assignment best, solve blocked blockedOptions = .ok assignment ∧
      IsGreatest (blocked.matchingSizes blockedOptions) assignment.assignedCount ∧
      assignment.assignedCount + assignment.stripped.length = min blocked.rows blocked.cols ∧
      (assignment.isOptimal = true ↔
        assignment.assignedCount = min blocked.rows blocked.cols) ∧
      blockedOptions.IsBest (blocked.maximumTotals blockedOptions) best ∧
      |assignment.cost - best| ≤ blocked.side * blockedOptions.tolerance := by
  have htolerance : blocked.side * blockedOptions.tolerance < 1 := by decide +kernel
  exact ⟨accepts_blocked, htolerance, exists_solve_near_best accepts_blocked htolerance⟩

/-- **The answer is optimal.** Where costs and pad value are multiples of a unit fraction, and the
tolerance is less than the unit, an answer is a maximum matching of the allowed cells, and no other
one has a better total. -/
theorem exists_solve_best (h : matrix.Accepts options) {scale : Nat} (hscale : 0 < scale)
    (hdata : ∀ cost ∈ matrix.data, ∃ count : ℤ, cost = count / scale)
    (hpad : ∃ count : ℤ, options.padValue = count / scale)
    (htolerance : options.tolerance < 1 / scale) :
    ∃ assignment, solve matrix options = .ok assignment ∧
      assignment.pairs.Nodup ∧
      matrix.IsMaximumMatching options assignment.pairs.toFinset ∧
      assignment.cost = matrix.totalOver assignment.pairs.toFinset ∧
      options.IsBest (matrix.maximumTotals options) assignment.cost := by
  obtain ⟨assignment, problem, stage, σ, hsolve, hrepresents, hbalanced, hσ, hshows⟩ :=
    h.exists_solve_eq_ok
  have hunit : (0 : ℚ) < 1 / scale := by positivity
  have hone : (1 : ℚ) ∈ AddSubgroup.zmultiples (1 / scale : ℚ) := by
    have hmem := div_mem_zmultiples scale scale
    rwa [Int.cast_natCast, div_self (Nat.cast_ne_zero.mpr hscale.ne')] at hmem
  have hpadding : options.padValue ∈ AddSubgroup.zmultiples (1 / scale : ℚ) := by
    obtain ⟨count, hcount⟩ := hpad
    rw [hcount]
    exact div_mem_zmultiples count scale
  have hcosts := hrepresents.cost_mem_group _ hone hpadding fun cost hcost => by
    obtain ⟨count, hcount⟩ := hdata cost hcost
    rw [hcount]
    exact div_mem_zmultiples count scale
  have hcheapest : ∀ τ, problem.totalCost σ ≤ problem.totalCost τ := by
    apply hbalanced.totalCost_le_of_unit hσ hunit hcosts
    rw [hrepresents.frames.epsilon_eq]
    exact htolerance
  refine ⟨assignment, hsolve, assignment.nodup_pairs, ?_, ?_, ?_⟩
  · rw [hshows.pairs_eq]
    apply hrepresents.isMaximumMatching_keptCells zero_lt_one
    intro τ
    rw [add_zero]
    exact hcheapest τ
  · rw [hshows.pairs_eq]
    exact hshows.cost_eq
  · rw [hshows.cost_eq]
    exact hrepresents.isBest_totalOver hcheapest

/-- The same maximum, in halves. -/
theorem exists_solve_blocked_best : blocked.Accepts blockedOptions ∧
    (∀ cost ∈ blocked.data, ∃ count : ℤ, cost = count / (2 : Nat)) ∧
    (∃ count : ℤ, blockedOptions.padValue = count / (2 : Nat)) ∧
    blockedOptions.tolerance < 1 / (2 : Nat) ∧
    ∃ assignment, solve blocked blockedOptions = .ok assignment ∧
      assignment.pairs.Nodup ∧
      blocked.IsMaximumMatching blockedOptions assignment.pairs.toFinset ∧
      assignment.cost = blocked.totalOver assignment.pairs.toFinset ∧
      blockedOptions.IsBest (blocked.maximumTotals blockedOptions) assignment.cost := by
  have hscale : ∀ cost : ℚ, (2 * cost).den = 1 → ∃ count : ℤ, cost = count / (2 : Nat) := by
    intro cost hden
    refine ⟨(2 * cost).num, ?_⟩
    rw [Rat.coe_int_num_of_den_eq_one hden]
    norm_num
  have hdata : ∀ cost ∈ blocked.data, ∃ count : ℤ, cost = count / (2 : Nat) := by
    intro cost hcost
    have hden : ∀ cost ∈ blocked.data, (2 * cost).den = 1 := by decide +kernel
    exact hscale cost (hden cost hcost)
  have hpad := hscale blockedOptions.padValue (by decide +kernel)
  have htolerance : blockedOptions.tolerance < 1 / (2 : Nat) := by decide +kernel
  exact ⟨accepts_blocked, hdata, hpad, htolerance,
    exists_solve_best accepts_blocked Nat.two_pos hdata hpad htolerance⟩

end Hungarian
