import Hungarian.Proofs.Assignment.Soundness
import Hungarian.Proofs.Double.Progress
import Hungarian.Proofs.Stage.Failure

/-!
# Matrices whose data does not fit their shape

The stored cells of a matrix need not be as many as its shape has places. With a cell for every place
and no more than the square has room for, a solve never faults. Surplus cells that the square has no
room for fault before anything is solved. Missing cells are solved as if they cost the pad value, and
the answer stands unless it assigns one of them.
-/

namespace Hungarian

variable {α : Type}

namespace CostMatrix

variable {matrix : CostMatrix α} {cost : α} {row col : Nat}

def completed (matrix : CostMatrix α) (cost : α) : CostMatrix α where
  data := matrix.data ++ Array.replicate (matrix.rows * matrix.cols - matrix.data.size) cost
  rows := matrix.rows
  cols := matrix.cols

theorem size_completed (matrix : CostMatrix α) (cost : α) :
    (matrix.completed cost).data.size = max matrix.data.size (matrix.rows * matrix.cols) := by
  rw [completed, Array.size_append, Array.size_replicate]
  omega

theorem get?_completed (h : matrix.offset row col < matrix.data.size) :
    (matrix.completed cost).get? row col = matrix.get? row col :=
  Array.getElem?_append_left h

/-- A missing cell reads as the cost that stands in for it. -/
theorem getD_get?_completed :
    ((matrix.completed cost).get? row col).getD cost = (matrix.get? row col).getD cost := by
  by_cases hstored : matrix.offset row col < matrix.data.size
  · rw [get?_completed hstored]
  · have hmissing : matrix.get? row col = none := Array.getElem?_eq_none (Nat.le_of_not_lt hstored)
    rw [hmissing, Option.getD_none]
    change (matrix.completed cost).data[matrix.offset row col]?.getD cost = cost
    rw [completed, Array.getElem?_append_right (Nat.le_of_not_lt hstored), Array.getElem?_replicate]
    split <;> rfl

theorem mem_data_completed {other : α} (h : other ∈ (matrix.completed cost).data) :
    other ∈ matrix.data ∨ other = cost :=
  (Array.mem_append.mp h).imp_right fun hmem => (Array.mem_replicate.mp hmem).2

def answerStored (matrix : CostMatrix α) (assignment : Assignment α) :
    Except (Failure α) (Assignment α) :=
  if ∀ pair ∈ assignment.pairs, matrix.offset pair.1 pair.2 < matrix.data.size then .ok assignment
  else .error (.faulted .outOfRange)

theorem mul_le_side_mul (matrix : CostMatrix α) :
    matrix.rows * matrix.cols ≤ matrix.side * matrix.cols :=
  Nat.mul_le_mul_right _ (Nat.le_max_left _ _)

/-- Padding puts the pad value where cells are missing. -/
theorem padded_completed (hroom : matrix.data.size ≤ matrix.side * matrix.cols) :
    (matrix.completed cost).padded cost = matrix.padded cost := by
  have hroom' := (matrix.size_completed cost).trans_le (max_le hroom matrix.mul_le_side_mul)
  refine (if_neg (Nat.not_lt.mpr hroom')).trans (Eq.trans ?_ (if_neg (Nat.not_lt.mpr hroom)).symm)
  refine congrArg Except.ok (congrArg Square.ofFn ?_)
  funext row col
  change (if (col : Nat) < matrix.cols then _ else cost) = _
  rw [getD_get?_completed]

end CostMatrix

namespace Problem

variable [CostArithmetic α] {matrix : CostMatrix α} {options : Options α}

theorem check_completed (h : check matrix options = .ok ()) :
    check (matrix.completed options.padValue) options = .ok () := by
  obtain ⟨⟨hrows, hcols⟩, hfinite, hvalidate⟩ := check_eq_ok_iff.mp h
  have hcosts := (CostMatrix.checkFinite_eq_ok_iff hcols).mp hfinite
  have hpad := (Options.validate_eq_ok_iff.mp hvalidate).2.1
  have hcols' : 0 < (matrix.completed options.padValue).cols := hcols
  refine check_eq_ok_iff.mpr ⟨⟨hrows, hcols⟩, ?_, hvalidate⟩
  refine (CostMatrix.checkFinite_eq_ok_iff hcols').mpr ?_
  intro cost hcost
  rcases CostMatrix.mem_data_completed hcost with hdata | rfl
  · exact hcosts cost hdata
  · exact hpad

omit [CostArithmetic α] in
theorem Frames.completed {problem : Problem α matrix.side} (h : problem.Frames matrix options)
    (cost : α) : Problem.Frames (matrix.completed cost) options problem :=
  ⟨h.rows_eq, h.cols_eq, h.epsilon_eq, h.isForbidden_eq⟩

/-- Missing cells count as padding. -/
theorem normalize_completed (hcheck : check matrix options = .ok ())
    (hroom : matrix.data.size ≤ matrix.side * matrix.cols) :
    normalize (matrix.completed options.padValue) options = normalize matrix options := by
  unfold normalize
  rw [check_completed hcheck, hcheck]
  change (matrix.completed options.padValue).padded options.padValue >>= _ = _
  rw [CostMatrix.padded_completed hroom]
  rfl

/-- A cell more than the square has places for is written outside. -/
theorem normalize_eq_outOfRange (hcheck : check matrix options = .ok ())
    (hsurplus : matrix.side * matrix.cols < matrix.data.size) :
    normalize matrix options = .error (.faulted .outOfRange) := by
  rw [normalize, hcheck, CostMatrix.padded, if_pos hsurplus]
  rfl

/-- Cells that the square has room for are refused with an error for the caller, if at all. -/
theorem exists_refused_of_normalize {failure : Failure α}
    (hroom : matrix.data.size ≤ matrix.side * matrix.cols)
    (h : normalize matrix options = .error failure) : ∃ error, failure = .refused error := by
  cases hcheck : check matrix options with
  | error other =>
      rw [normalize_eq_error_of_check hcheck] at h
      cases h
      exact exists_refused_of_check hcheck
  | ok =>
      rw [normalize, hcheck, CostMatrix.padded, if_neg (Nat.not_lt.mpr hroom)] at h
      exact exists_refused_of_mapError h

end Problem

namespace Solution

variable [CostArithmetic α] {matrix : CostMatrix α} {options : Options α}
  {problem : Problem α matrix.side} {size : Nat} {cells : List (Fin size × Fin size)}

theorem costOf_congr {other : CostMatrix α}
    (h : ∀ cell ∈ cells, matrix.get? cell.1 cell.2 = other.get? cell.1 cell.2) :
    costOf matrix cells = costOf other cells := by
  unfold costOf
  generalize (0 : α) = sum
  induction cells generalizing sum with
  | nil => rfl
  | cons cell rest ih =>
      obtain ⟨hcell, hrest⟩ := List.forall_mem_cons.mp h
      rw [List.foldlM_cons, List.foldlM_cons, addCost, addCost, hcell]
      exact bind_congr (ih hrest)

/-- One missing cell is enough for the sum to fault. -/
theorem costOf_eq_outOfRange {cell : Fin size × Fin size} (hcell : cell ∈ cells)
    (hmissing : matrix.get? cell.1 cell.2 = none) :
    costOf matrix cells = .error (.faulted .outOfRange) := by
  unfold costOf
  generalize (0 : α) = sum
  induction cells generalizing sum with
  | nil => exact absurd hcell List.not_mem_nil
  | cons first rest ih =>
      rw [List.foldlM_cons, addCost]
      cases hfirst : matrix.get? first.1 first.2 with
      | none => rfl
      | some cost =>
          rcases List.mem_cons.mp hcell with rfl | hrest
          · rw [hmissing] at hfirst
            cases hfirst
          · exact ih hrest _

/-- An answer for the completed matrix stands unless it assigns a cell that is not stored. -/
theorem extract_eq_bind_extract_completed (hframes : problem.Frames matrix options)
    (solution : Solution α matrix.side) (padValue : α) :
    solution.extract matrix problem =
      (solution.extract (matrix.completed padValue) problem).bind matrix.answerStored := by
  have hstored : matrix.rows * matrix.cols ≤ (matrix.completed padValue).data.size := by
    rw [CostMatrix.size_completed]
    exact Nat.le_max_right _ _
  obtain ⟨cost, hcost⟩ : ∃ cost,
      costOf (matrix.completed padValue) (solution.kept problem) = .ok cost :=
    costOf_kept_of_le hstored (hframes.completed padValue) solution
  have hpairs : (∀ pair ∈ (solution.toAssignment problem cost).pairs,
      matrix.offset pair.1 pair.2 < matrix.data.size) ↔
      ∀ cell ∈ solution.kept problem, matrix.offset cell.1 cell.2 < matrix.data.size := by
    constructor
    · intro h cell hcell
      exact h (cell.1, cell.2) (mem_pairs_toAssignment.mpr ⟨cell, hcell, rfl, rfl⟩)
    · rintro h ⟨row, col⟩ hpair
      obtain ⟨cell, hcell, rfl, rfl⟩ := mem_pairs_toAssignment.mp hpair
      exact h cell hcell
  rw [extract, extract, hcost]
  change _ = if _ then _ else _
  by_cases hall : ∀ cell ∈ solution.kept problem, matrix.offset cell.1 cell.2 < matrix.data.size
  · rw [if_pos (hpairs.mpr hall),
      costOf_congr fun cell hcell => (CostMatrix.get?_completed (hall cell hcell)).symm, hcost]
    rfl
  · rw [if_neg (mt hpairs.mp hall)]
    push Not at hall
    obtain ⟨cell, hcell, hmissing⟩ := hall
    rw [costOf_eq_outOfRange hcell (Array.getElem?_eq_none hmissing)]
    rfl

end Solution

section Outcomes

variable [CostArithmetic α] {matrix : CostMatrix α} {options : Options α}
  {problem : Problem α matrix.side} {stage : Stage α matrix.side}

theorem solve_of_final (hproblem : Problem.normalize matrix options = .ok problem)
    (hfinal : Stage.final problem = (stage, .ok ())) :
    solve matrix options = stage.solution.extract matrix problem := by
  unfold solve solveReport
  rw [hproblem]
  dsimp only
  rw [hfinal]
  dsimp only
  unfold Report.ofStage
  cases stage.solution.extract matrix problem <;> rfl

theorem solve_eq_error_of_final {failure : Failure α}
    (hproblem : Problem.normalize matrix options = .ok problem)
    (hfinal : Stage.final problem = (stage, .error failure)) :
    solve matrix options = .error failure := by
  unfold solve solveReport
  rw [hproblem]
  dsimp only
  rw [hfinal]

/-- A matrix that lacks cells is solved as the completed one, and an answer that assigns a cell that
is not stored is a fault instead. -/
theorem solve_eq_bind_solve_completed (hcheck : Problem.check matrix options = .ok ())
    (hroom : matrix.data.size ≤ matrix.side * matrix.cols) :
    solve matrix options =
      (solve (matrix.completed options.padValue) options).bind matrix.answerStored := by
  have hnormalize := Problem.normalize_completed hcheck hroom
  cases hproblem : Problem.normalize matrix options with
  | error failure =>
      rw [solve_eq_error_of_normalize hproblem,
        solve_eq_error_of_normalize (hnormalize.trans hproblem)]
      rfl
  | ok problem =>
      rcases hfinal : Stage.final problem with ⟨stage, failure | ⟨⟩⟩
      · rw [solve_eq_error_of_final hproblem hfinal,
          solve_eq_error_of_final (hnormalize.trans hproblem) hfinal]
        rfl
      · rw [solve_of_final hproblem hfinal, solve_of_final (hnormalize.trans hproblem) hfinal]
        exact Solution.extract_eq_bind_extract_completed (Problem.frames_of_normalize hproblem)
          stage.solution options.padValue

/-- With a cell for every place and room for every cell, a solve fails where its input is refused or
where one of its searches does. -/
theorem solve_cases (hstored : matrix.rows * matrix.cols ≤ matrix.data.size)
    (hroom : matrix.data.size ≤ matrix.side * matrix.cols) (options : Options α) :
    (∃ assignment, solve matrix options = .ok assignment) ∨
    (∃ error, solve matrix options = .error (.refused error)) ∨
    ∃ problem stage error, Problem.normalize matrix options = .ok problem ∧
      Stage.final problem = (stage, .error (SearchError.toFailure error)) ∧
      solve matrix options = .error error.toFailure := by
  cases hproblem : Problem.normalize matrix options with
  | error failure =>
      obtain ⟨error, rfl⟩ := Problem.exists_refused_of_normalize hroom hproblem
      exact .inr (.inl ⟨error, solve_eq_error_of_normalize hproblem⟩)
  | ok problem =>
      rcases Stage.final_cases problem with
        ⟨stage, hfinal, -⟩ | ⟨stage, row, last, failure, hstage, hmatch, hfinal⟩
      · obtain ⟨cost, hcost⟩ := Solution.costOf_kept_of_le hstored
          (Problem.frames_of_normalize hproblem) stage.solution
        refine .inl ⟨stage.solution.toAssignment problem cost, ?_⟩
        rw [solve_of_final hproblem hfinal, Solution.extract, hcost]
        rfl
      · obtain ⟨error, -, rfl⟩ := hstage.exists_error_of_matchRow hmatch
        exact .inr (.inr ⟨problem, last, error, rfl, hfinal,
          solve_eq_error_of_final hproblem hfinal⟩)

/-- Whatever the arithmetic, the one fault of such a solve is a search that does not end. -/
theorem eq_stalled_of_solve {fault : Fault}
    (hstored : matrix.rows * matrix.cols ≤ matrix.data.size)
    (hroom : matrix.data.size ≤ matrix.side * matrix.cols)
    (h : solve matrix options = .error (.faulted fault)) : fault = .stalled := by
  rcases solve_cases hstored hroom options with
    ⟨assignment, hsolve⟩ | ⟨error, hsolve⟩ | ⟨-, -, error, -, -, hsolve⟩
  · simp [hsolve] at h
  · simp [hsolve] at h
  · rw [hsolve, Except.error.injEq] at h
    cases error <;> simp [SearchError.toFailure] at h
    exact h.symm

/-- With a cell for every place and room for every cell, a solve is answered or refused. -/
theorem solve_ne_faulted {matrix : CostMatrix Float} {options : Options Float}
    (hstored : matrix.rows * matrix.cols ≤ matrix.data.size)
    (hroom : matrix.data.size ≤ matrix.side * matrix.cols) (fault : Fault) :
    solve matrix options ≠ .error (.faulted fault) := by
  rcases solve_cases hstored hroom options with
    ⟨assignment, hsolve⟩ | ⟨error, hsolve⟩ | ⟨problem, stage, error, hproblem, hfinal, hsolve⟩
  · simp [hsolve]
  · simp [hsolve]
  · have hprogress : Search.Progresses problem :=
      Search.progresses_double (Problem.epsilon_nonneg_of_normalize hproblem)
    rcases Stage.final_cases_of_progresses hprogress with ⟨last, hlast, -⟩ | ⟨⟨last, hlast⟩, -⟩
    · simp [hfinal] at hlast
    · rw [hfinal, Prod.mk.injEq, Except.error.injEq] at hlast
      rw [hsolve, hlast.2]
      simp [SearchError.toFailure]

theorem solve_completed_ne_faulted {matrix : CostMatrix Float} {options : Options Float}
    (hroom : matrix.data.size ≤ matrix.side * matrix.cols) (fault : Fault) :
    solve (matrix.completed options.padValue) options ≠ .error (.faulted fault) := by
  have hsize := matrix.size_completed options.padValue
  exact solve_ne_faulted (hsize.ge.trans' (Nat.le_max_right _ _))
    (hsize.trans_le (max_le hroom matrix.mul_le_side_mul)) fault

end Outcomes

end Hungarian
