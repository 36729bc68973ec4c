import Hungarian.Proofs.Assignment.Stored
import Hungarian.Proofs.Flat.Search
import Hungarian.Proofs.Matrix.Built

/-!
# A solve in flat arrays

A solve that computes every index and checks it at each access gives what the solve on typed tables
gives, for every matrix whose square there is room for, all options and every arithmetic. So the
faults of a solve are all that its accesses to arrays can lead to, and a matrix that a builder made
leads to none. A matrix whose square there is no room for is refused for what is wrong with it, or
its solve faults; it is never answered.
-/

namespace Hungarian

open Flat

variable {α : Type} {size : Nat}

structure FlatStage (α : Type) where
  matching : FlatMatching
  state : FlatState α

def Stage.flat (stage : Stage α size) : FlatStage α where
  matching := stage.matching.flat
  state := stage.state.flat

structure FlatAnswer (α : Type) where
  cols : Array (Option Nat)
  rows : Array (Option Nat)
  stripped : List (Nat × Nat)
  cost : α

def Problem.isStripped (problem : Problem α size) (row col : Fin size) : Bool :=
  !problem.isPadding row col && problem.isForbidden row col

namespace FlatAnswer

variable (answer : FlatAnswer α) (kept kept' stripped stripped' : List (Fin size × Fin size))
  (cost cost' : α)

def placed : FlatAnswer α where
  cols := written answer.cols (kept.map fun cell => (cell.1.val, some cell.2.val))
  rows := written answer.rows (kept.map fun cell => (cell.2.val, some cell.1.val))
  stripped := answer.stripped ++ stripped.map indices
  cost

theorem placed_nil : answer.placed ([] : List (Fin size × Fin size)) [] answer.cost = answer := by
  simp [placed, written]

/-- Cells are placed one after another. -/
theorem placed_placed :
    (answer.placed kept stripped cost).placed kept' stripped' cost' =
      answer.placed (kept ++ kept') (stripped ++ stripped') cost' := by
  simp [placed, written]

theorem size_cols_placed : (answer.placed kept stripped cost).cols.size = answer.cols.size :=
  size_written ..

theorem size_rows_placed : (answer.placed kept stripped cost).rows.size = answer.rows.size :=
  size_written ..

end FlatAnswer

/-- No two kept cells share a row, so that the first one and the last one of a row are the same. -/
theorem Solution.find?_kept (problem : Problem α size) (solution : Solution α size) (row : Nat) :
    ((solution.kept problem).reverse.find? fun cell => cell.1.val == row).map
        (fun cell => cell.2.val) =
      ((solution.kept problem).find? fun cell => cell.1.val == row).map fun cell => cell.2.val := by
  have hunique : ∀ first ∈ solution.kept problem, ∀ second ∈ solution.kept problem,
      first.1.val = second.1.val → first.2.val = second.2.val := by
    rintro ⟨row, col⟩ hfirst ⟨row', col'⟩ hsecond hrow
    obtain rfl : row = row' := Fin.ext hrow
    have hcol := Matching.mem_pairs.mp (List.mem_filter.mp hfirst).1
    have hcol' := Matching.mem_pairs.mp (List.mem_filter.mp hsecond).1
    exact congrArg Fin.val (Option.some.inj (hcol.symm.trans hcol'))
  ext found
  rw [map_find?_eq_some_iff hunique, map_find?_eq_some_iff]
  · simp only [List.mem_reverse]
  · simpa only [List.mem_reverse] using hunique

variable [CostArithmetic α]

/-! ### The stages -/

namespace FlatStage

def initial (problem : FlatProblem α) : Checked α (FlatStage α) := do
  let potentials ← FlatPotentials.initial problem
  return {
    matching := .empty problem.size
    state := { tree := .blank problem.size, potentials } }

def matchRow (problem : FlatProblem α) (stage : FlatStage α) (row : Nat) :
    Checked α (FlatStage α) := do
  let (path, state) ← stage.state.run problem stage.matching row
  let matching ← stage.matching.augment path
  if matching.count = row + 1 then return { matching, state }
  else .error (.refused (.internal "augmenting path did not grow the matching"))

def final (problem : FlatProblem α) : Checked α (FlatStage α) := do
  (List.range problem.size).foldlM (matchRow problem) (← initial problem)

variable (problem : Problem α size) (stage : Stage α size)

theorem initial_flat : initial problem.flat = pure (Stage.initial problem).flat := by
  rw [initial, FlatPotentials.initial_flat, pure_bind, Problem.size_flat,
    ← FlatMatching.empty_flat, ← FlatTree.blank_flat]
  rfl

/-- What is logged of the searches is no part of the arrays. -/
theorem matchRow_flat (row : Fin size) : stage.flat.matchRow problem.flat row =
    (stage.matchRow problem row).2.map fun _ => (stage.matchRow problem row).1.flat := by
  unfold matchRow Stage.matchRow
  rw [Stage.flat, FlatState.run_flat]
  rcases Search.run problem stage.matching stage.state row with ⟨state, error | path⟩
  · rfl
  · change (stage.matching.flat.augment (path.map indices) >>= _) = _
    rw [FlatMatching.augment_flat, pure_bind, FlatMatching.count_flat]
    dsimp only
    split <;> rfl

theorem matchRows_flat (rows : List (Fin size)) :
    rows.foldlM (fun stage row => matchRow problem.flat stage row.val) stage.flat =
      (stage.matchRows problem rows).2.map fun _ => (stage.matchRows problem rows).1.flat := by
  induction rows generalizing stage with
  | nil => rfl
  | cons row rest ih =>
      rw [List.foldlM_cons, matchRow_flat, Stage.matchRows]
      rcases stage.matchRow problem row with ⟨next, failure | _⟩
      · rfl
      · exact ih next

theorem final_flat : final problem.flat =
    (Stage.final problem).2.map fun _ => (Stage.final problem).1.flat := by
  rw [final, initial_flat, pure_bind, Problem.size_flat, foldlM_range_eq]
  exact matchRows_flat problem (Stage.initial problem) (List.finRange size)

end FlatStage

/-! ### The answer -/

namespace FlatAnswer

def empty (problem : FlatProblem α) : FlatAnswer α where
  cols := Array.replicate problem.rows none
  rows := Array.replicate problem.cols none
  stripped := []
  cost := 0

def place (matrix : CostMatrix α) (problem : FlatProblem α) (answer : FlatAnswer α)
    (cell : Nat × Nat) : Checked α (FlatAnswer α) := do
  if problem.isPadding cell.1 cell.2 then
    return answer
  else if ← problem.isForbiddenAt cell.1 cell.2 then
    return { answer with stripped := answer.stripped ++ [cell] }
  else
    return {
      answer with
      cols := ← write answer.cols cell.1 (some cell.2)
      rows := ← write answer.rows cell.2 (some cell.1)
      cost := answer.cost + (← read matrix.data (matrix.offset cell.1 cell.2)) }

end FlatAnswer

namespace FlatStage

def certify (problem : FlatProblem α) (stage : FlatStage α) : Checked α Bool := do
  let isFeasible ← stage.state.potentials.isFeasible problem fun row col => do
    if problem.isPadding row col then return false
    else return !(← problem.isForbiddenAt row col)
  let isTight ← stage.matching.pairs.allM fun cell =>
    stage.state.potentials.isTight problem cell.1 cell.2
  return isFeasible && isTight && stage.matching.count == problem.size

def extract (matrix : CostMatrix α) (problem : FlatProblem α) (stage : FlatStage α) :
    Checked α (Assignment α) := do
  let answer ← stage.matching.pairs.foldlM (FlatAnswer.place matrix problem) (.empty problem)
  let isOptimal ← andAlso answer.stripped.isEmpty (stage.certify problem)
  return {
    cols := answer.cols.toList
    rows := answer.rows.toList
    isOptimal
    cost := answer.cost
    stripped := answer.stripped
    dualBound := stage.state.potentials.dualObjective }

end FlatStage

def solveFlat (matrix : CostMatrix α) (options : Options α) : Checked α (Assignment α) := do
  let problem ← FlatProblem.normalize matrix options
  (← FlatStage.final problem).extract matrix problem

/-! ### Placing cells -/

namespace FlatAnswer

variable {matrix : CostMatrix α} {problem : Problem α size} {answer : FlatAnswer α}
  {cell : Fin size × Fin size}

theorem place_of_padding (h : problem.isPadding cell.1 cell.2) :
    answer.place matrix problem.flat (indices cell) = pure answer :=
  if_pos h

/-- A forbidden cell is stripped and costs nothing. -/
theorem place_of_forbidden (hinside : problem.isPadding cell.1 cell.2 = false)
    (h : problem.isForbidden cell.1 cell.2) :
    answer.place matrix problem.flat (indices cell) =
      pure (answer.placed [] [cell] answer.cost) := by
  have hinside' : problem.flat.isPadding cell.1 cell.2 = false := hinside
  unfold place
  rw [indices, hinside', if_neg Bool.false_ne_true, FlatProblem.isForbiddenAt_flat, pure_bind, h,
    if_pos rfl]
  rfl

theorem place_of_allowed (hcols : answer.cols.size = problem.rows)
    (hrows : answer.rows.size = problem.cols) (h : problem.isAllowed cell.1 cell.2) :
    answer.place matrix problem.flat (indices cell) =
      (Solution.addCost matrix answer.cost cell).map (answer.placed [cell] []) := by
  obtain ⟨hinside, hfree⟩ := Problem.isAllowed_iff.mp h
  obtain ⟨hrow, hcol⟩ := Problem.isPadding_eq_false_iff.mp hinside
  have hinside' : problem.flat.isPadding cell.1 cell.2 = false := hinside
  unfold place
  rw [indices, hinside', if_neg Bool.false_ne_true, FlatProblem.isForbiddenAt_flat, pure_bind,
    hfree, if_neg Bool.false_ne_true, write, if_pos (hcols.symm ▸ hrow), pure_bind, write,
    if_pos (hrows.symm ▸ hcol), pure_bind, Flat.read, Solution.addCost, CostMatrix.get?]
  cases matrix.data[matrix.offset cell.1 cell.2]? with
  | none => rfl
  | some cost =>
      rw [pure_bind]
      change _ = pure (placed answer [cell] [] (answer.cost + cost))
      rw [placed, List.map_nil, List.append_nil]
      rfl

/-- Only a kept cell can fail, when its cost is not stored. -/
theorem foldlM_place (cells : List (Fin size × Fin size))
    (hcols : answer.cols.size = problem.rows) (hrows : answer.rows.size = problem.cols) :
    (cells.map indices).foldlM (place matrix problem.flat) answer =
      ((cells.filter fun cell => problem.isAllowed cell.1 cell.2).foldlM (Solution.addCost matrix)
        answer.cost).map fun cost =>
          answer.placed (cells.filter fun cell => problem.isAllowed cell.1 cell.2)
            (cells.filter fun cell => problem.isStripped cell.1 cell.2) cost := by
  induction cells generalizing answer with
  | nil => exact congrArg pure (placed_nil answer).symm
  | cons cell rest ih =>
      rw [List.map_cons, List.foldlM_cons, List.filter_cons, List.filter_cons, Problem.isAllowed,
        Problem.isStripped]
      have hplaced (kept stripped : List (Fin size × Fin size)) (cost : α) :=
        ih ((size_cols_placed answer kept stripped cost).trans hcols)
          ((size_rows_placed answer kept stripped cost).trans hrows)
      cases hpadding : problem.isPadding cell.1 cell.2 with
      | true =>
          rw [place_of_padding hpadding, pure_bind, ih hcols hrows]
          rfl
      | false =>
          cases hforbidden : problem.isForbidden cell.1 cell.2 with
          | true =>
              rw [place_of_forbidden hpadding hforbidden, pure_bind, hplaced]
              simp only [placed_placed]
              rfl
          | false =>
              have hallowed := Problem.isAllowed_iff.mpr ⟨hpadding, hforbidden⟩
              rw [place_of_allowed hcols hrows hallowed]
              change _ = ((cell :: rest.filter fun cell => problem.isAllowed cell.1 cell.2).foldlM
                (Solution.addCost matrix) answer.cost).map _
              rw [List.foldlM_cons]
              cases Solution.addCost matrix answer.cost cell with
              | error failure => rfl
              | ok cost =>
                  refine (hplaced [cell] [] cost).trans ?_
                  simp only [placed_placed]
                  rfl

end FlatAnswer

/-! ### The answer read off -/

namespace FlatStage

/-- The certificate is computed from the same numbers in the same order. -/
theorem certify_flat (problem : Problem α size) (stage : Stage α size) :
    stage.flat.certify problem.flat = pure (stage.solution.isCertified problem) := by
  have hallowed (row col : Fin size) : (do
      if problem.flat.isPadding row col then return false
      else return !(← problem.flat.isForbiddenAt row col) : Checked α Bool) =
      pure (problem.isAllowed row col) := by
    rw [FlatProblem.isForbiddenAt_flat, pure_bind]
    change (if problem.isPadding row col then _ else _) = _
    rw [Problem.isAllowed]
    cases problem.isPadding row col <;> rfl
  have hpairs : (stage.matching.pairs.map indices).allM (fun cell =>
      stage.state.potentials.flat.isTight problem.flat cell.1 cell.2) =
      pure (stage.matching.pairs.all fun cell =>
        stage.state.potentials.isTight problem cell.1 cell.2) :=
    allM_eq (fun cell => FlatPotentials.isTight_flat problem _ cell.1 cell.2) _
  unfold certify
  rw [Stage.flat, Search.State.flat]
  dsimp only
  rw [FlatPotentials.isFeasible_flat problem stage.state.potentials hallowed, pure_bind,
    FlatMatching.pairs_flat, hpairs, pure_bind, FlatMatching.count_flat]
  rfl

theorem extract_flat (matrix : CostMatrix α) (problem : Problem α size) (stage : Stage α size) :
    stage.flat.extract matrix problem.flat = stage.solution.extract matrix problem := by
  have hplace : (stage.matching.pairs.map indices).foldlM
      (FlatAnswer.place matrix problem.flat) (.empty problem.flat) =
      (Solution.costOf matrix (stage.solution.kept problem)).map fun cost =>
        (FlatAnswer.empty problem.flat).placed (stage.solution.kept problem)
          (stage.solution.stripped problem) cost :=
    FlatAnswer.foldlM_place stage.matching.pairs Array.size_replicate Array.size_replicate
  unfold extract
  change (stage.matching.flat.pairs.foldlM _ _ >>= _) = _
  rw [FlatMatching.pairs_flat, hplace, Solution.extract]
  cases Solution.costOf matrix (stage.solution.kept problem) with
  | error failure => rfl
  | ok cost =>
      change (andAlso ((stage.solution.stripped problem).map indices).isEmpty
        (stage.flat.certify problem.flat) >>= _) = pure _
      rw [certify_flat, List.isEmpty_map, andAlso_pure, pure_bind, Solution.toAssignment]
      simp only [FlatAnswer.placed, FlatAnswer.empty, toList_written_none, Solution.find?_kept]
      rfl

end FlatStage

/-- **A solve that checks every index** gives what the solve on typed tables gives, where there is
room for the square. -/
theorem solveFlat_eq {matrix : CostMatrix α} (hside : matrix.side < sideLimit)
    (options : Options α) : solveFlat matrix options = solve matrix options := by
  rw [solveFlat, FlatProblem.normalize_eq hside]
  cases hproblem : Problem.normalize matrix options with
  | error failure => exact (solve_eq_error_of_normalize hproblem).symm
  | ok problem =>
      change (FlatStage.final problem.flat >>= _) = _
      rw [FlatStage.final_flat]
      rcases hfinal : Stage.final problem with ⟨stage, failure | _⟩
      · exact (solve_eq_error_of_final hproblem hfinal).symm
      · rw [solve_of_final hproblem hfinal]
        exact FlatStage.extract_flat matrix problem stage

theorem solveFlat_eq_error_of_check {matrix : CostMatrix α} {options : Options α}
    {failure : Failure α} (hcheck : Problem.check matrix options = .error failure) :
    solveFlat matrix options = .error failure := by
  rw [solveFlat, FlatProblem.normalize_eq_error_of_check hcheck]
  rfl

section Oversized

variable {matrix : CostMatrix α} (hside : sideLimit ≤ matrix.side) (options : Options α)

include hside

theorem solveFlat_of_oversized (hproduct : matrix.side * matrix.side < indexLimit) :
    solveFlat matrix options =
      (Problem.check matrix options).bind fun _ => .error (.faulted .oversized) := by
  rw [solveFlat, FlatProblem.normalize_of_oversized hproduct hside]
  cases Problem.check matrix options <;> rfl

/-- Also where the number of cells is no index, so that what is left of it may be small. -/
theorem solveFlat_ne_ok (assignment : Assignment α) : solveFlat matrix options ≠ .ok assignment := by
  intro h
  obtain ⟨problem, hproblem, hsolved⟩ := exists_of_bind_eq_ok h
  obtain ⟨stage, hfinal, -⟩ := exists_of_bind_eq_ok hsolved
  obtain ⟨first, hinitial, -⟩ := exists_of_bind_eq_ok hfinal
  obtain ⟨potentials, hpotentials, -⟩ := exists_of_bind_eq_ok hinitial
  obtain ⟨hsize, hcosts⟩ := FlatProblem.size_of_normalize hproblem
  refine FlatPotentials.initial_ne_ok (hcosts.trans_le ?_) potentials hpotentials
  rw [hsize]
  exact cellLimit_le_mul_self hside

end Oversized

/-- What is solved in memory is solved in flat arrays. -/
theorem solveFlat_eq_solveInMemory {matrix : CostMatrix α}
    (hproduct : matrix.side * matrix.side < indexLimit) (options : Options α) :
    solveFlat matrix options = solveInMemory matrix options := by
  rcases Nat.lt_or_ge matrix.side sideLimit with hside | hside
  · rw [solveFlat_eq hside, solveInMemory_of_side_lt matrix options hside]
  · rw [solveFlat_of_oversized hside options hproduct,
      solveInMemory_of_le_side matrix options hside]

/-- Whatever the arithmetic, no access of a solve leaves its array and nothing is divided by zero:
the one fault that is left is that a search does not end. -/
theorem eq_stalled_of_solveFlat {matrix : CostMatrix α} (h : matrix.IsBuilt)
    (hside : matrix.side < sideLimit) {options : Options α} {fault : Fault}
    (hfault : solveFlat matrix options = .error (.faulted fault)) : fault = .stalled := by
  rw [solveFlat_eq hside] at hfault
  have hshaped := h.wellShaped
  exact eq_stalled_of_solve hshaped.ge (hshaped.trans_le matrix.mul_le_side_mul) hfault

/-- **A matrix that was built never faults** where there is room for its square: with costs in double
precision every search ends too, so that a solve that checks each index answers the caller or refuses
the input. Where there is no room no solve gets an answer, and the checks still come first. -/
theorem solveFlat_ok_or_refused {matrix : CostMatrix Float} (h : matrix.IsBuilt)
    (options : Options Float) :
    (matrix.side < sideLimit → solveFlat matrix options = solve matrix options ∧
      ((∃ assignment, solveFlat matrix options = .ok assignment) ∨
        ∃ error, solveFlat matrix options = .error (.refused error))) ∧
    (sideLimit ≤ matrix.side → ∀ assignment, solveFlat matrix options ≠ .ok assignment) ∧
    (sideLimit ≤ matrix.side → matrix.side * matrix.side < indexLimit →
      solveFlat matrix options =
        (Problem.check matrix options).bind fun _ => .error (.faulted .oversized)) ∧
    (matrix.side * matrix.side < indexLimit →
      solveFlat matrix options = solveInMemory matrix options) ∧
    (∀ failure, Problem.check matrix options = .error failure →
      solveFlat matrix options = .error failure ∧ ∃ error, failure = .refused error) := by
  refine ⟨fun hside => ⟨solveFlat_eq hside options, ?_⟩, fun hside => solveFlat_ne_ok hside options,
    fun hside => solveFlat_of_oversized hside options,
    fun hproduct => solveFlat_eq_solveInMemory hproduct options,
    fun failure hcheck => ⟨solveFlat_eq_error_of_check hcheck,
      Problem.exists_refused_of_check hcheck⟩⟩
  cases houtcome : solveFlat matrix options with
  | ok assignment => exact .inl ⟨assignment, rfl⟩
  | error failure =>
      cases failure with
      | refused error => exact .inr ⟨error, rfl⟩
      | faulted fault =>
          rw [solveFlat_eq hside] at houtcome
          have hshaped := h.wellShaped
          exact absurd houtcome
            (solve_ne_faulted hshaped.ge (hshaped.trans_le matrix.mul_le_side_mul) fault)

def spotted : CostMatrix Float where
  data := #[7, 0 / 0, 0 / 0, 0 / 0, 0 / 0, -1]
  rows := 2
  cols := 3

/-- Two rows without a number, of which two cells were written over. -/
theorem solveFlat_spotted : spotted.IsBuilt ∧ spotted.side < sideLimit ∧
    solveFlat spotted Options.standard.maximizing = solve spotted Options.standard.maximizing ∧
    ((∃ assignment, solveFlat spotted Options.standard.maximizing = .ok assignment) ∨
      ∃ error, solveFlat spotted Options.standard.maximizing = .error (.refused error)) := by
  have hblank : CostMatrix.filled 2 3 (0 / 0 : Float) =
      .ok ⟨#[0 / 0, 0 / 0, 0 / 0, 0 / 0, 0 / 0, 0 / 0], 2, 3⟩ := rfl
  have hfirst : (⟨#[0 / 0, 0 / 0, 0 / 0, 0 / 0, 0 / 0, 0 / 0], 2, 3⟩ : CostMatrix Float).set? 0 0 7 =
      some ⟨#[7, 0 / 0, 0 / 0, 0 / 0, 0 / 0, 0 / 0], 2, 3⟩ := rfl
  have hsecond : (⟨#[7, 0 / 0, 0 / 0, 0 / 0, 0 / 0, 0 / 0], 2, 3⟩ : CostMatrix Float).set? 1 2 (-1) =
      some spotted := rfl
  have hbuilt : spotted.IsBuilt :=
    ((CostMatrix.IsBuilt.filled (by decide) hblank).modify? hfirst).modify? hsecond
  have hside : spotted.side < sideLimit := by decide
  exact ⟨hbuilt, hside, (solveFlat_ok_or_refused hbuilt Options.standard.maximizing).1 hside⟩

/-- One row of zeros, of which there are so many that there is no room for their square. -/
theorem solveFlat_widest : widest.IsBuilt ∧
    solveFlat widest widestOptions = .error (.faulted .oversized) := by
  have hproduct : 1 * sideLimit < indexLimit := by decide
  have hzeros : CostMatrix.zeros 1 sideLimit = .ok widest := by
    rw [CostMatrix.zeros, CostMatrix.filled, wrapped_of_lt hproduct, reserve_of_lt (by decide),
      widest, Nat.one_mul]
    rfl
  refine ⟨.zeros hproduct hzeros, ?_⟩
  rw [solveFlat_of_oversized (by decide) widestOptions (by decide), isValid_widest.check_eq_ok]
  rfl

end Hungarian
