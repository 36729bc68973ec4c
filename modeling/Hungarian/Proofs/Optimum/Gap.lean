import Hungarian.Proofs.Optimum.Answer
import Hungarian.Proofs.Problem.Counted

/-!
# The dual bound of an answer

The cost of an answer is that of the caller's pairs, whereas its dual bound is the sum of the
potentials of the square problem. What the square problem pays can be told from the answer alone,
since every answer leaves the same number of padding cells and each stripped pair costs the
sentinel. So the two public numbers bound one another.
-/

namespace Hungarian

open CostArithmetic

variable {matrix : CostMatrix ℚ} {options : Options ℚ} {problem : Problem ℚ matrix.side}
  {stage : Stage ℚ matrix.side} {σ : Equiv.Perm (Fin matrix.side)} {assignment : Assignment ℚ}

/-- What the square problem pays for an answer: its pairs, each as the problem counts it, then the
padding, and a sentinel for each stripped pair. -/
def Assignment.squareTotal (matrix : CostMatrix ℚ) (options : Options ℚ) (top sentinel : ℚ)
    (assignment : Assignment ℚ) : ℚ :=
  (if options.maximize then top * assignment.assignedCount - assignment.cost
    else assignment.cost) +
  options.counted top options.padValue * (matrix.side - (min matrix.rows matrix.cols : Nat)) +
  sentinel * assignment.stripped.length

theorem Problem.cost_mem_zmultiples_of_normalize (h : matrix.Accepts options) {scale : Nat}
    (hscale : 0 < scale) (hdata : ∀ cost ∈ matrix.data, ∃ count : ℤ, cost = count / scale)
    (hpad : ∃ count : ℤ, options.padValue = count / scale)
    (hproblem : Problem.normalize matrix options = .ok problem) (row col : Fin matrix.side) :
    problem.cost row col ∈ AddSubgroup.zmultiples (1 / scale : ℚ) := by
  have hwhole : ∀ cost : ℚ, (∃ count : ℤ, cost = count / scale) →
      cost ∈ AddSubgroup.zmultiples (1 / scale : ℚ) := by
    rintro cost ⟨count, rfl⟩
    exact div_mem_zmultiples count scale
  have hone : (1 : ℚ) = (scale : ℤ) / scale := by
    rw [Int.cast_natCast, div_self (Nat.cast_ne_zero.mpr hscale.ne')]
  exact (represents_of_normalize h hproblem).cost_mem_group _ (hwhole 1 ⟨scale, hone⟩)
    (hwhole _ hpad) (fun cost hcost => hwhole cost (hdata cost hcost)) row col

namespace Answers

variable (h : Answers matrix options problem stage σ assignment)

include h

theorem length_stripped_eq : assignment.stripped.length = (problem.strippedRows σ).card := by
  have hframes := Problem.frames_of_normalize h.normalize_eq
  have hcount := h.shows.count_eq
  have hcard := Problem.card_keptRows_add_card_strippedRows (σ := σ) hframes.size_eq
  rw [hframes.rows_eq, hframes.cols_eq, ← Problem.card_keptCells, h.shows.card_keptCells] at hcard
  omega

/-- What the permutation costs can be told from the answer alone. -/
theorem totalCost_eq_squareTotal (haccepts : matrix.Accepts options) :
    problem.totalCost σ = assignment.squareTotal matrix options
      (matrix.gridTop options.padValue) problem.sentinel := by
  have hrepresents := Problem.represents_of_normalize haccepts h.normalize_eq
  have htotal := hrepresents.totalCost_eq
    (fun row col hfree =>
      (Problem.cost_eq_counted haccepts.wellShaped h.normalize_eq hfree).trans
        (options.counted_eq_add _ _)) σ
  rw [htotal, Assignment.squareTotal, Options.counted_eq_add, ← h.shows.cost_eq,
    ← Problem.card_keptCells, h.shows.card_keptCells, h.length_stripped_eq, Options.sign]
  split <;> ring

end Answers

/-- **The gap of an answer.** What the square problem pays for an answer is not less than the dual
bound, and exceeds it by the tolerance for each row of the square at most; where costs and pad value
are multiples of a unit fraction, and the tolerance is less than the unit, the two are equal. -/
theorem exists_solve_within_dual_gap (h : matrix.Accepts options) :
    ∃ (assignment : Assignment ℚ) (problem : Problem ℚ matrix.side) (top : ℚ),
      solve matrix options = .ok assignment ∧
      Problem.normalize matrix options = .ok problem ∧
      IsGreatest (matrix.entries options.padValue) top ∧
      0 ≤ assignment.squareTotal matrix options top problem.sentinel - assignment.dualBound ∧
      assignment.squareTotal matrix options top problem.sentinel - assignment.dualBound ≤
        matrix.side * options.tolerance ∧
      ∀ scale : Nat, 0 < scale → (∀ cost ∈ matrix.data, ∃ count : ℤ, cost = count / scale) →
        (∃ count : ℤ, options.padValue = count / scale) → options.tolerance < 1 / scale →
        assignment.squareTotal matrix options top problem.sentinel = assignment.dualBound := by
  obtain ⟨problem, stage, σ, assignment, hanswers⟩ := h.exists_answers
  obtain ⟨-, -, -, -, -, hsolve⟩ := hanswers.runs
  have hepsilon := (Problem.frames_of_normalize hanswers.normalize_eq).epsilon_eq
  have hlow := hanswers.balanced.dualObjective_le σ
  have hhigh := hanswers.balanced.totalCost_le_add hanswers.realizes
  rw [hanswers.totalCost_eq_squareTotal h, ← hanswers.dualBound_eq] at hlow hhigh
  rw [hepsilon] at hhigh
  refine ⟨assignment, problem, _, hsolve, hanswers.normalize_eq,
    CostMatrix.isGreatest_gridTop h.rows_pos _, ?_, ?_, ?_⟩
  · exact sub_nonneg.mpr hlow
  · exact sub_le_iff_le_add'.mpr hhigh
  · intro scale hscale hdata hpad htolerance
    have hunit : (0 : ℚ) < 1 / scale := by positivity
    have hcosts := Problem.cost_mem_zmultiples_of_normalize h hscale hdata hpad
      hanswers.normalize_eq
    rw [← hepsilon] at htolerance
    rw [← hanswers.totalCost_eq_squareTotal h, hanswers.dualBound_eq]
    exact hanswers.balanced.totalCost_eq_of_unit hanswers.realizes hunit hcosts htolerance

def benched : CostMatrix ℚ where
  data := #[3, 2, 0, 0, 1, 0, 0, 0, 0, 3, 0, 0]
  rows := 3
  cols := 4

def benchedOptions : Options ℚ where
  maximize := true
  disallowed := .ofList [(2, .ofList [0, 1, 2, 3])]
  padValue := 6
  tolerance := 1

def benchedAssignment : Assignment ℚ where
  cols := [some 0, some 1, none]
  rows := [some 0, some 1, none, none]
  isOptimal := false
  cost := 3
  stripped := [(2, 2)]
  dualBound := 39

theorem exists_solve_benched_gap : benched.Accepts benchedOptions ∧
    solve benched benchedOptions = .ok benchedAssignment ∧
    ∃ (assignment : Assignment ℚ) (problem : Problem ℚ benched.side) (top : ℚ),
      solve benched benchedOptions = .ok assignment ∧
      Problem.normalize benched benchedOptions = .ok problem ∧
      IsGreatest (benched.entries benchedOptions.padValue) top ∧
      0 ≤ assignment.squareTotal benched benchedOptions top problem.sentinel -
        assignment.dualBound ∧
      assignment.squareTotal benched benchedOptions top problem.sentinel - assignment.dualBound ≤
        benched.side * benchedOptions.tolerance ∧
      ∀ scale : Nat, 0 < scale → (∀ cost ∈ benched.data, ∃ count : ℤ, cost = count / scale) →
        (∃ count : ℤ, benchedOptions.padValue = count / scale) →
        benchedOptions.tolerance < 1 / scale →
        assignment.squareTotal benched benchedOptions top problem.sentinel =
          assignment.dualBound := by
  have haccepts : benched.Accepts benchedOptions :=
    { wellShaped := by decide
      rows_pos := by decide
      cols_pos := by decide
      inside := by decide
      tolerance_nonneg := by decide +kernel }
  exact ⟨haccepts, by decide +kernel, exists_solve_within_dual_gap haccepts⟩

end Hungarian
