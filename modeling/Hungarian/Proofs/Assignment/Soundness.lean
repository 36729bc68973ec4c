import Hungarian.Arithmetic.Double
import Hungarian.Proofs.Assignment.Extract
import Hungarian.Proofs.Problem.Normalize
import Hungarian.Proofs.Stage.Growth
import Hungarian.Solve

/-!
# What every answer keeps to

An answer is sound when its two lists are inverse to each other and stay within the shape of the
matrix, when no forbidden pair is assigned, and when assigned and stripped pairs together fill the
smaller side. `isSound_of_solve` makes no assumption on the arithmetic: rounding, overflow and costs
that are not numbers may lead the search astray, but never to an unsound answer.
-/

namespace Hungarian

variable {α : Type}

namespace Assignment

def LeavesFree (assignment : Assignment α) (pair : Nat × Nat) : Prop :=
  assignment.cols[pair.1]? = some none ∧ assignment.rows[pair.2]? = some none

structure IsSound (matrix : CostMatrix α) (options : Options α) (assignment : Assignment α) :
    Prop where
  length_cols : assignment.cols.length = matrix.rows
  length_rows : assignment.rows.length = matrix.cols
  inverse : ∀ row col : Nat,
    assignment.cols[row]? = some (some col) ↔ assignment.rows[col]? = some (some row)
  assigned_inside : ∀ row col : Nat, assignment.cols[row]? = some (some col) →
    row < matrix.rows ∧ col < matrix.cols
  assigned_allowed : ∀ row col : Nat, assignment.cols[row]? = some (some col) →
    options.disallowed.contains row col = false
  stripped_forbidden : ∀ pair ∈ assignment.stripped,
    options.disallowed.contains pair.1 pair.2 = true
  stripped_inside : ∀ pair ∈ assignment.stripped, pair.1 < matrix.rows ∧ pair.2 < matrix.cols
  stripped_ascending : assignment.stripped.Pairwise fun first second => first.1 < second.1
  stripped_cols_distinct : assignment.stripped.Pairwise fun first second => first.2 ≠ second.2
  stripped_free : ∀ pair ∈ assignment.stripped, assignment.LeavesFree pair
  count : assignment.assignedCount + assignment.stripped.length = min matrix.rows matrix.cols
  isComplete_iff : assignment.isComplete = true ↔ assignment.stripped = []

end Assignment

variable [CostArithmetic α] {matrix : CostMatrix α} {options : Options α}
  {assignment : Assignment α}

namespace Solution

variable {problem : Problem α matrix.side} {solution : Solution α matrix.side} {cost : α}
  {σ : Equiv.Perm (Fin matrix.side)}

theorem foldlM_addCost {size : Nat} {cells : List (Fin size × Fin size)}
    {entry : Fin size × Fin size → α}
    (hget : ∀ cell ∈ cells, matrix.get? cell.1 cell.2 = some (entry cell)) (sum : α) :
    cells.foldlM (addCost matrix) sum = .ok ((cells.map entry).foldl (· + ·) sum) := by
  induction cells generalizing sum with
  | nil => rfl
  | cons cell rest ih =>
      obtain ⟨hcell, hrest⟩ := List.forall_mem_cons.mp hget
      rw [List.foldlM_cons, addCost, hcell, List.map_cons, List.foldl_cons]
      exact ih hrest _

/-- The cost of cells that are stored is the sum of what they store. -/
theorem costOf_eq {size : Nat} {cells : List (Fin size × Fin size)}
    {entry : Fin size × Fin size → α}
    (hget : ∀ cell ∈ cells, matrix.get? cell.1 cell.2 = some (entry cell)) :
    costOf matrix cells = .ok (CostArithmetic.total (cells.map entry)) :=
  foldlM_addCost hget 0

omit [CostArithmetic α] in
/-- Kept cells are cells of the matrix, so that their costs can be read. -/
theorem inside_of_mem_kept (hframes : problem.Frames matrix options)
    {cell : Fin matrix.side × Fin matrix.side} (hcell : cell ∈ solution.kept problem) :
    cell.1 < matrix.rows ∧ cell.2 < matrix.cols :=
  (hframes.isAllowed_iff.mp (List.mem_filter.mp hcell).2).1

/-- Where a cell is stored for every place, every kept cell has a cost. -/
theorem costOf_kept_of_le (hstored : matrix.rows * matrix.cols ≤ matrix.data.size)
    (hframes : problem.Frames matrix options) (solution : Solution α matrix.side) :
    ∃ cost, costOf matrix (solution.kept problem) = .ok cost := by
  have hget : ∀ cell ∈ solution.kept problem,
      matrix.get? cell.1 cell.2 = some ((matrix.get? cell.1 cell.2).getD 0) := by
    intro cell hcell
    obtain ⟨hrow, hcol⟩ := inside_of_mem_kept hframes hcell
    have hlt := (CostMatrix.offset_lt_mul hrow hcol).trans_le hstored
    have hget : matrix.get? cell.1 cell.2 = some matrix.data[matrix.offset cell.1 cell.2] :=
      Array.getElem?_eq_getElem hlt
    rw [hget, Option.getD_some]
  exact ⟨_, costOf_eq hget⟩

theorem exists_extract_eq_ok (hshaped : matrix.WellShaped)
    (hframes : problem.Frames matrix options) (solution : Solution α matrix.side) :
    ∃ assignment, solution.extract matrix problem = .ok assignment := by
  obtain ⟨cost, hcost⟩ := costOf_kept_of_le hshaped.ge hframes solution
  exact ⟨_, extract_eq_ok_iff.mpr ⟨cost, hcost, rfl⟩⟩

/-- Every cell of the smaller side is kept or stripped. -/
theorem count_toAssignment (h : solution.matching.Realizes σ)
    (hframes : problem.Frames matrix options) :
    (solution.toAssignment problem cost).assignedCount +
      (solution.toAssignment problem cost).stripped.length = min matrix.rows matrix.cols := by
  have hlength : (solution.toAssignment problem cost).stripped.length =
      (problem.strippedRows σ).card := by
    rw [← length_stripped h]
    exact List.length_map _
  rw [assignedCount_toAssignment h, hlength,
    Problem.card_keptRows_add_card_strippedRows hframes.size_eq, hframes.rows_eq, hframes.cols_eq]

theorem leavesFree_of_mem_stripped (h : solution.matching.Realizes σ) {pair : Nat × Nat}
    (hpair : pair ∈ (solution.toAssignment problem cost).stripped) :
    (solution.toAssignment problem cost).LeavesFree pair := by
  obtain ⟨cell, hcell, rfl⟩ := List.mem_map.mp hpair
  obtain ⟨himage, hinside, hforbidden⟩ := (mem_stripped_iff h).mp hcell
  have hshape := Problem.isPadding_eq_false_iff.mp hinside
  have hnot : ¬problem.isAllowed cell.1 (σ cell.1) := by
    rw [himage, Problem.isAllowed_iff, hforbidden]
    simp
  constructor
  · refine getElem?_eq_some_none (by rw [length_cols_toAssignment]; exact hshape.1) ?_
    intro col hcol
    obtain ⟨index, hindex, -, hallowed⟩ := (getElem?_cols_toAssignment h).mp hcol
    rw [Fin.ext hindex] at hallowed
    exact hnot hallowed
  · refine getElem?_eq_some_none (by rw [length_rows_toAssignment]; exact hshape.2) ?_
    intro row hrow
    obtain ⟨index, -, hindex, hallowed⟩ := (getElem?_rows_toAssignment h).mp hrow
    rw [σ.injective ((Fin.ext hindex).trans himage.symm)] at hallowed
    exact hnot hallowed

theorem isSound_toAssignment (h : solution.matching.Realizes σ)
    (hframes : problem.Frames matrix options) :
    (solution.toAssignment problem cost).IsSound matrix options where
  length_cols := by rw [length_cols_toAssignment, hframes.rows_eq]
  length_rows := by rw [length_rows_toAssignment, hframes.cols_eq]
  inverse row col := by rw [getElem?_cols_toAssignment h, getElem?_rows_toAssignment h]
  assigned_inside row col hassigned := by
    obtain ⟨index, rfl, rfl, hallowed⟩ := (getElem?_cols_toAssignment h).mp hassigned
    rw [← hframes.rows_eq, ← hframes.cols_eq]
    exact Problem.isPadding_eq_false_iff.mp (Problem.isAllowed_iff.mp hallowed).1
  assigned_allowed row col hassigned := by
    obtain ⟨index, rfl, rfl, hallowed⟩ := (getElem?_cols_toAssignment h).mp hassigned
    rw [← hframes.isForbidden_eq]
    exact (Problem.isAllowed_iff.mp hallowed).2
  stripped_forbidden pair hpair := by
    obtain ⟨cell, hcell, rfl⟩ := List.mem_map.mp hpair
    rw [← hframes.isForbidden_eq]
    exact ((mem_stripped_iff h).mp hcell).2.2
  stripped_inside pair hpair := by
    obtain ⟨cell, hcell, rfl⟩ := List.mem_map.mp hpair
    rw [← hframes.rows_eq, ← hframes.cols_eq]
    exact Problem.isPadding_eq_false_iff.mp ((mem_stripped_iff h).mp hcell).2.1
  stripped_ascending := List.pairwise_map.mpr ((pairwise_stripped h).imp fun hpair => hpair.1)
  stripped_cols_distinct := List.pairwise_map.mpr
    ((pairwise_stripped h).imp fun hpair heq => hpair.2 (Fin.ext heq))
  stripped_free pair hpair := leavesFree_of_mem_stripped h hpair
  count := count_toAssignment h hframes
  isComplete_iff := by
    have hcount : (solution.toAssignment problem cost).assignedCount +
        (solution.toAssignment problem cost).stripped.length = min matrix.rows matrix.cols :=
      count_toAssignment h hframes
    rw [Assignment.isComplete, beq_iff_eq, length_cols_toAssignment, length_rows_toAssignment,
      hframes.rows_eq, hframes.cols_eq, ← List.length_eq_zero_iff]
    omega

end Solution

/-- **Soundness of every answer.** -/
theorem isSound_of_solve (h : solve matrix options = .ok assignment) :
    assignment.IsSound matrix options := by
  obtain ⟨problem, stage, hproblem, hstage, hextract⟩ := solve_eq_ok_iff.mp h
  obtain ⟨σ, hσ⟩ := Stage.exists_realizes_of_final hstage
  obtain ⟨cost, -, rfl⟩ := Solution.extract_eq_ok_iff.mp hextract
  exact Solution.isSound_toAssignment hσ (Problem.frames_of_normalize hproblem)

/-- Costs so far apart that a reduced cost is infinite in the second search. -/
def steep : CostMatrix Float where
  data := #[-4.5e307, 0, 0, 0, 0, 0]
  rows := 2
  cols := 3

def steepOptions : Options Float where
  maximize := false
  disallowed := .ofList [(0, .ofList [1]), (1, .ofList [0, 1, 2])]
  padValue := 0
  tolerance := 0

def steepAssignment : Assignment Float where
  cols := [some 0, none]
  rows := [some 0, none, none]
  isOptimal := false
  cost := -4.5e307
  stripped := [(1, 1)]
  dualBound := 9.0000000000000024938e307

theorem isSound_steepAssignment : solve steep steepOptions = .ok steepAssignment ∧
    steepAssignment.IsSound steep steepOptions := by
  have hsolve : solve steep steepOptions = .ok steepAssignment := by decide +kernel
  exact ⟨hsolve, isSound_of_solve hsolve⟩

end Hungarian
