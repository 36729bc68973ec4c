import Hungarian.Event
import Hungarian.Problem.Normalize

/-!
Solving the assignment problem of a matrix: normalize it, match every row, and read the assignment
off the matching.
-/

namespace Hungarian

structure Report (α : Type) where
  events : List (Event α)
  outcome : Except (Failure α) (Assignment α)

variable {α : Type} [CostArithmetic α]

def Report.ofStage {size : Nat} (matrix : CostMatrix α) (problem : Problem α size)
    (stage : Stage α size) : Report α :=
  match stage.solution.extract matrix problem with
  | .error failure => { events := [], outcome := .error failure }
  | .ok assignment =>
    let warning :=
      if assignment.stripped.isEmpty then [] else [.stripped assignment.stripped]
    let closing :=
      .solved assignment.cost assignment.assignedCount stage.tightenings assignment.isOptimal
    { events := warning ++ [closing], outcome := .ok assignment }

def solveReport (matrix : CostMatrix α) (options : Options α) : Report α :=
  match Problem.normalize matrix options with
  | .error failure => { events := [], outcome := .error failure }
  | .ok problem =>
    let opening := [
      .normalized matrix.side problem.sentinel problem.epsilon,
      .solving problem.rows problem.cols matrix.side options.maximize options.disallowed.count]
    match Stage.final problem with
    | (stage, .error failure) =>
      { events := opening ++ stage.searches.flatMap RowSearch.events, outcome := .error failure }
    | (stage, .ok ()) =>
      let closing := Report.ofStage matrix problem stage
      { events := opening ++ stage.searches.flatMap RowSearch.events ++ closing.events
        outcome := closing.outcome }

def solve (matrix : CostMatrix α) (options : Options α) : Except (Failure α) (Assignment α) :=
  (solveReport matrix options).outcome

theorem solve_eq_ok_iff {matrix : CostMatrix α} {options : Options α} {assignment : Assignment α} :
    solve matrix options = .ok assignment ↔
    ∃ problem stage, Problem.normalize matrix options = .ok problem ∧
      Stage.final problem = (stage, .ok ()) ∧
      stage.solution.extract matrix problem = .ok assignment := by
  unfold solve solveReport
  cases hproblem : Problem.normalize matrix options with
  | error failure => simp
  | ok problem =>
      dsimp only
      split
      · next stage failure hstage => simp [hstage]
      · next stage hstage =>
          unfold Report.ofStage
          cases hextract : stage.solution.extract matrix problem with
          | error failure => simp [hstage, hextract]
          | ok answer => simp [hstage, hextract]

def Runs (matrix : CostMatrix α) (options : Options α)
    (searches : List (RowSearch α matrix.side)) (assignment : Assignment α) : Prop :=
  ∃ (problem : Problem α matrix.side) (stage : Stage α matrix.side),
    Problem.normalize matrix options = .ok problem ∧ Stage.final problem = (stage, .ok ()) ∧
    stage.searches = searches ∧ solve matrix options = .ok assignment

def solveReportInMemory (matrix : CostMatrix α) (options : Options α) : Report α :=
  match Problem.checkRoom matrix options with
  | .error failure => { events := [], outcome := .error failure }
  | .ok () => solveReport matrix options

def solveInMemory (matrix : CostMatrix α) (options : Options α) :
    Except (Failure α) (Assignment α) :=
  (solveReportInMemory matrix options).outcome

theorem solveInMemory_eq (matrix : CostMatrix α) (options : Options α) :
    solveInMemory matrix options =
      (Problem.checkRoom matrix options).bind fun _ => solve matrix options := by
  unfold solveInMemory solveReportInMemory
  cases Problem.checkRoom matrix options <;> rfl

theorem solveInMemory_of_side_lt (matrix : CostMatrix α) (options : Options α)
    (h : matrix.side < sideLimit) : solveInMemory matrix options = solve matrix options := by
  rw [solveInMemory_eq, Problem.checkRoom, if_pos h]
  rfl

theorem solveInMemory_of_le_side (matrix : CostMatrix α) (options : Options α)
    (h : sideLimit ≤ matrix.side) : solveInMemory matrix options =
      (Problem.check matrix options).bind fun _ => .error (.faulted .oversized) := by
  rw [solveInMemory_eq, Problem.checkRoom, if_neg (Nat.not_lt.mpr h)]
  cases Problem.check matrix options <;> rfl

theorem solve_eq_error_of_normalize {matrix : CostMatrix α} {options : Options α}
    {failure : Failure α} (h : Problem.normalize matrix options = .error failure) :
    solve matrix options = .error failure := by
  rw [solve, solveReport, h]

end Hungarian
