import Hungarian.Proofs.Assignment.Soundness
import Hungarian.Proofs.Potentials.Feasible

/-!
# What a certificate proves

Nothing is known here of where a solution comes from: its potentials may be any numbers. A certificate
compares each reduced cost with the allowance of its own cell, and by weak duality the totals of two
permutations differ by no more than the allowances of their cells. The forbidden cells are not
compared, so that nothing is said of permutations that use one.
-/

namespace Hungarian

namespace Potentials

variable {size : Nat} {problem : Problem ℚ size} {potentials : Potentials ℚ size}
  {part : Fin size → Fin size → Bool} {row col : Fin size} {σ τ : Equiv.Perm (Fin size)}

theorem isFeasible_iff : potentials.isFeasible problem part = true ↔ ∀ row col,
    part row col = true →
      -potentials.allowance problem row col ≤ potentials.reducedCost problem row col := by
  simp only [isFeasible, List.all_eq_true, Square.mem_places, forall_const, Prod.forall,
    Bool.or_eq_true, Bool.not_eq_true', decide_eq_true_eq, ← Bool.not_eq_true, ← imp_iff_not_or]

theorem isTight_iff : potentials.isTight problem row col = true ↔
    |potentials.reducedCost problem row col| ≤ potentials.allowance problem row col :=
  decide_eq_true_iff

/-- Weak duality, with an error for each cell. -/
theorem totalCost_le_totalCost_add {error error' : Fin size → ℚ}
    (hmatched : ∀ row, potentials.reducedCost problem row (σ row) ≤ error row)
    (hother : ∀ row, -error' row ≤ potentials.reducedCost problem row (τ row)) :
    problem.totalCost σ ≤ problem.totalCost τ + ∑ row, error row + ∑ row, error' row := by
  have hσ : ∑ row, potentials.reducedCost problem row (σ row) ≤ ∑ row, error row :=
    Finset.sum_le_sum fun row _ => hmatched row
  have hτ : -∑ row, error' row ≤ ∑ row, potentials.reducedCost problem row (τ row) := by
    rw [← Finset.sum_neg_distrib]
    exact Finset.sum_le_sum fun row _ => hother row
  rw [totalCost_eq_dualObjective_add potentials, totalCost_eq_dualObjective_add potentials]
  linarith

end Potentials

namespace Solution

section Certified

variable {α : Type} [CostArithmetic α] {size : Nat} {problem : Problem α size}
  {solution : Solution α size} {σ : Equiv.Perm (Fin size)} {cost : α}

theorem isCertified_iff : solution.isCertified problem = true ↔
    solution.potentials.isFeasible problem problem.isAllowed = true ∧
    (∀ row col, solution.matching.colOf row = some col →
      solution.potentials.isTight problem row col = true) ∧
    solution.matching.count = size := by
  rw [isCertified, Bool.and_eq_true, Bool.and_eq_true, List.all_eq_true, beq_iff_eq, and_assoc]
  simp only [Prod.forall, Matching.mem_pairs]

theorem isOptimal_toAssignment_iff : (solution.toAssignment problem cost).isOptimal = true ↔
    solution.stripped problem = [] ∧ solution.isCertified problem = true := by
  rw [toAssignment, Bool.and_eq_true, List.isEmpty_iff]

end Certified

variable {matrix : CostMatrix ℚ} {options : Options ℚ} {problem : Problem ℚ matrix.side}
  {solution : Solution ℚ matrix.side} {σ τ : Equiv.Perm (Fin matrix.side)}

/-- A matched cell of a certified solution is tight, forbidden or not. -/
theorem reducedCost_le_of_isCertified (hσ : solution.matching.Realizes σ)
    (hcertified : solution.isCertified problem = true) (row : Fin matrix.side) :
    solution.potentials.reducedCost problem row (σ row) ≤
      solution.potentials.allowance problem row (σ row) := by
  obtain ⟨-, htight, -⟩ := isCertified_iff.mp hcertified
  exact le_of_abs_le (Potentials.isTight_iff.mp (htight row (σ row) (hσ.colOf_eq row)))

theorem le_reducedCost_of_isCertified (hcertified : solution.isCertified problem = true)
    {row col : Fin matrix.side} (hallowed : problem.isAllowed row col = true) :
    -solution.potentials.allowance problem row col ≤
      solution.potentials.reducedCost problem row col :=
  Potentials.isFeasible_iff.mp (isCertified_iff.mp hcertified).1 row col hallowed

theorem isForbidden_eq_false_of_stripped_eq_nil
    (hinside : ∀ row col, problem.isForbidden row col → problem.isPadding row col = false)
    (hσ : solution.matching.Realizes σ) (hstripped : solution.stripped problem = [])
    (row : Fin matrix.side) : problem.isForbidden row (σ row) = false := by
  by_contra hnot
  have hforbidden : problem.isForbidden row (σ row) = true := by simpa using hnot
  have hmem : (row, σ row) ∈ solution.stripped problem :=
    (mem_stripped_iff hσ).mpr ⟨rfl, hinside _ _ hforbidden, hforbidden⟩
  rw [hstripped] at hmem
  exact absurd hmem List.not_mem_nil

section Square

variable (hsquare : matrix.rows = matrix.cols) (hframes : problem.Frames matrix options)

include hsquare hframes

theorem isPadding_eq_false (row col : Fin matrix.side) : problem.isPadding row col = false := by
  have hrow : row < max matrix.rows matrix.cols := row.isLt
  have hcol : col < max matrix.rows matrix.cols := col.isLt
  rw [Problem.isPadding_eq_false_iff, hframes.rows_eq, hframes.cols_eq]
  omega

theorem contains_eq_false_of_stripped_eq_nil (hσ : solution.matching.Realizes σ)
    (hstripped : solution.stripped problem = []) (row : Fin matrix.side) :
    options.disallowed.contains row (σ row) = false := by
  rw [← hframes.isForbidden_eq]
  exact isForbidden_eq_false_of_stripped_eq_nil
    (fun row col _ => isPadding_eq_false hsquare hframes row col) hσ hstripped row

/-- No permutation without forbidden cells is cheaper by more than the allowances of both. -/
theorem totalCost_le_of_isCertified (hσ : solution.matching.Realizes σ)
    (hcertified : solution.isCertified problem = true)
    (hτ : ∀ row : Fin matrix.side, options.disallowed.contains row (τ row) = false) :
    problem.totalCost σ ≤ problem.totalCost τ +
      ∑ row, solution.potentials.allowance problem row (σ row) +
      ∑ row, solution.potentials.allowance problem row (τ row) := by
  apply Potentials.totalCost_le_totalCost_add (reducedCost_le_of_isCertified hσ hcertified)
  intro row
  -- only here the cells of the other permutation have to be allowed ones
  apply le_reducedCost_of_isCertified hcertified
  rw [Problem.isAllowed_iff, hframes.isForbidden_eq]
  exact ⟨isPadding_eq_false hsquare hframes _ _, hτ row⟩

end Square

/-- **Soundness of the certificate.** Whatever the potentials, an answer for a square matrix that is
called optimal shows a permutation of allowed cells, and no other permutation of allowed cells is
cheaper by more than the allowances of the cells of both. -/
theorem totalCost_le_of_isOptimal (hsquare : matrix.rows = matrix.cols)
    (hproblem : Problem.normalize matrix options = .ok problem)
    (hconsistent : solution.matching.Consistent) :
    (matrix.WellShaped → ∃ assignment, solution.extract matrix problem = .ok assignment) ∧
    ∀ assignment, solution.extract matrix problem = .ok assignment →
      assignment.isOptimal = true →
      ∃ σ, solution.matching.Realizes σ ∧
        (∀ row : Fin matrix.side, options.disallowed.contains row (σ row) = false) ∧
        ∀ τ : Equiv.Perm (Fin matrix.side),
          (∀ row : Fin matrix.side, options.disallowed.contains row (τ row) = false) →
          problem.totalCost σ ≤ problem.totalCost τ +
            ∑ row, solution.potentials.allowance problem row (σ row) +
            ∑ row, solution.potentials.allowance problem row (τ row) := by
  have hframes := Problem.frames_of_normalize hproblem
  refine ⟨fun hshaped => exists_extract_eq_ok hshaped hframes solution, ?_⟩
  intro assignment hextract hoptimal
  obtain ⟨cost, -, rfl⟩ := extract_eq_ok_iff.mp hextract
  obtain ⟨hstripped, hcertified⟩ := isOptimal_toAssignment_iff.mp hoptimal
  obtain ⟨σ, hσ⟩ := hconsistent.exists_realizes (isCertified_iff.mp hcertified).2.2
  exact ⟨σ, hσ, contains_eq_false_of_stripped_eq_nil hsquare hframes hσ hstripped,
    fun τ hτ => totalCost_le_of_isCertified hsquare hframes hσ hcertified hτ⟩

end Solution

def loose : CostMatrix ℚ where
  data := #[1, 1, 4, 1, 2, 4, 3, 3, 9]
  rows := 3
  cols := 3

def looseOptions : Options ℚ where
  maximize := false
  disallowed := .ofList [(1, .ofList [2]), (2, .ofList [2])]
  padValue := 0
  tolerance := 1 / 2

/-- The forbidden cells of the last column are far below their potentials. -/
def looseSolution : Solution ℚ 3 where
  matching := {
    cols := .ofFn fun row => some row.rev
    rows := .ofFn fun col => some col.rev }
  potentials := {
    rows := #v[-96, 1 / 2, 2]
    cols := #v[1, 3 / 2, 100] }

/-- The matching costs 9 and the other permutation of allowed cells costs 8. -/
theorem totalCost_looseSolution : loose.rows = loose.cols ∧
    looseSolution.matching.Consistent ∧
    ∃ (problem : Problem ℚ loose.side) (assignment : Assignment ℚ),
      Problem.normalize loose looseOptions = .ok problem ∧
      Solution.extract loose problem looseSolution = .ok assignment ∧
      assignment.isOptimal = true ∧ assignment.cost = 9 ∧
      ∃ σ, looseSolution.matching.Realizes σ ∧
        (∀ row : Fin loose.side, looseOptions.disallowed.contains row (σ row) = false) ∧
        ∀ τ : Equiv.Perm (Fin loose.side),
          (∀ row : Fin loose.side, looseOptions.disallowed.contains row (τ row) = false) →
          problem.totalCost σ ≤ problem.totalCost τ +
            ∑ row, looseSolution.potentials.allowance problem row (σ row) +
            ∑ row, looseSolution.potentials.allowance problem row (τ row) := by
  have hconsistent : looseSolution.matching.Consistent := by
    unfold Matching.Consistent
    decide
  have hcertified : ((Problem.normalize loose looseOptions).bind fun problem =>
      looseSolution.extract loose problem).toOption.any
        (fun assignment => assignment.isOptimal && assignment.cost == 9) = true := by
    decide +kernel
  cases hproblem : Problem.normalize loose looseOptions with
  | error failure =>
      rw [hproblem] at hcertified
      exact absurd hcertified Bool.false_ne_true
  | ok problem =>
      rw [hproblem] at hcertified
      have hsquare : loose.rows = loose.cols := rfl
      obtain ⟨hextracts, hsound⟩ :=
        Solution.totalCost_le_of_isOptimal hsquare hproblem hconsistent
      obtain ⟨assignment, hextract⟩ := hextracts (by decide)
      change ((looseSolution.extract loose problem).toOption.any
        fun assignment => assignment.isOptimal && assignment.cost == 9) = true at hcertified
      rw [hextract] at hcertified
      obtain ⟨hoptimal, hcost⟩ := Bool.and_eq_true_iff.mp hcertified
      exact ⟨hsquare, hconsistent, problem, assignment, rfl, hextract, hoptimal,
        beq_iff_eq.mp hcost, hsound assignment hextract hoptimal⟩

end Hungarian
