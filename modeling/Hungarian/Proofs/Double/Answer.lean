import Hungarian.Proofs.Assignment.Soundness
import Hungarian.Proofs.Double.Progress
import Hungarian.Proofs.Stage.Failure

/-!
# Answers in double precision

A matrix of finite costs whose sentinel is finite is not always answered: a cost taken from the
potential of its row can still overflow, and then the columns that the root does not reach keep the
parents of an earlier search, along which the way back may go round. Nothing else can go wrong.
-/

namespace Hungarian

open CostArithmetic Double

variable {matrix : CostMatrix Float} {options : Options Float}
  {problem : Problem Float matrix.side}

/-- A matrix that is accepted is answered, unless the way back of a search goes round; that takes a
stage at which some cell of the next row has a reduced cost that is infinite or not a number. -/
theorem solve_cases_of_normalize (hshaped : matrix.WellShaped)
    (hproblem : Problem.normalize matrix options = .ok problem) :
    (∃ assignment, solve matrix options = .ok assignment) ∨
    solve matrix options =
        .error (.refused (.internal "augmenting path contains a cycle")) ∧
      ∃ (stage : Stage Float matrix.side) (row col : Fin matrix.side),
        Stage.Reached problem row stage ∧
        ¬stage.state.potentials.reducedCost problem row col < infinity := by
  have hframes := Problem.frames_of_normalize hproblem
  have hprogress : Search.Progresses problem :=
    Search.progresses_double (Problem.epsilon_nonneg_of_normalize hproblem)
  rcases Stage.final_cases_of_progresses hprogress with
    ⟨last, hfinal, -⟩ | ⟨⟨last, hfinal⟩, stage, row, col, hstage, hcol⟩
  · obtain ⟨assignment, hextract⟩ :=
      Solution.exists_extract_eq_ok hshaped hframes last.solution
    exact .inl ⟨assignment, solve_eq_ok_iff.mpr ⟨problem, last, hproblem, hfinal, hextract⟩⟩
  · refine .inr ⟨?_, stage, row, col, hstage, of_decide_eq_false hcol⟩
    unfold solve solveReport
    rw [hproblem]
    dsimp only
    rw [hfinal]
    rfl

/-- Costs far below zero in one column, whose other cells are forbidden. -/
def tangled : CostMatrix Float where
  data := #[1, 0, 0, -5e307, 0, 0, -5e307, 0, 0]
  rows := 3
  cols := 3

def tangledOptions : Options Float where
  maximize := false
  disallowed := .ofList [(1, .ofList [1, 2]), (2, .ofList [1, 2])]
  padValue := 0
  tolerance := 0

theorem exists_normalize_tangled :
    ∃ problem, Problem.normalize tangled tangledOptions = .ok problem := by
  have hok : (Problem.normalize tangled tangledOptions).toOption.any (fun _ => true) = true := by
    decide +kernel
  obtain ⟨problem, hproblem, -⟩ := exists_ok_of_any hok
  exact ⟨problem, hproblem⟩

/-- The run is answered, or it breaks off at a reduced cost that is not below infinity. -/
theorem solve_tangled_cases : tangled.WellShaped ∧
    ∃ problem, Problem.normalize tangled tangledOptions = .ok problem ∧
      ((∃ assignment, solve tangled tangledOptions = .ok assignment) ∨
        solve tangled tangledOptions =
            .error (.refused (.internal "augmenting path contains a cycle")) ∧
          ∃ (stage : Stage Float tangled.side) (row col : Fin tangled.side),
            Stage.Reached problem row stage ∧
            ¬stage.state.potentials.reducedCost problem row col < infinity) := by
  have hshaped : tangled.WellShaped := by decide
  obtain ⟨problem, hproblem⟩ := exists_normalize_tangled
  exact ⟨hshaped, problem, hproblem, solve_cases_of_normalize hshaped hproblem⟩

/-- The sentinel is three times 5e307 and finite; less the potential of its row it is not. -/
theorem solve_tangled : tangled.WellShaped ∧
    (∃ problem, Problem.normalize tangled tangledOptions = .ok problem) ∧
    solve tangled tangledOptions =
      .error (.refused (.internal "augmenting path contains a cycle")) :=
  ⟨by decide, exists_normalize_tangled, by decide +kernel⟩

end Hungarian
