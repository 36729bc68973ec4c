import Mathlib
import Hungarian.Proofs.Optimum.Answer
import Hungarian.Proofs.Stage.Course

/-!
# The rise of the dual objective

A move of the potentials raises the row potentials of a tree and lowers its column potentials, both
by the same number. A tree has a row more than it has columns, namely its root, so that each move
raises the sum of all potentials by that number. Searches leave the potentials to the next one as
they are. So the dual bound of an answer is the sum of the initial potentials and of all moves.
-/

namespace Hungarian

open CostArithmetic

variable {size : Nat} {matching : Matching size} {root row col : Fin size}

namespace Tree

variable {α : Type} {tree : Tree α size}

def colCount (tree : Tree α size) : Nat :=
  (Finset.univ.filter fun col => tree.cols.get col = true).card

theorem IsLogged.colCount_eq (h : tree.IsLogged) : tree.colCount = tree.reached.length := by
  have hcols : (Finset.univ.filter fun col => tree.cols.get col = true) =
      tree.reached.toFinset := by
    ext col
    rw [Finset.mem_filter, List.mem_toFinset, h.col_mem_iff]
    simp
  rw [colCount, hcols, List.toFinset_card_of_nodup h.reached_nodup]

theorem IsTallied.rowCount_eq_colCount_add_one (h : tree.IsTallied) :
    tree.rowCount = tree.colCount + 1 := by
  rw [h.rowCount_eq, h.toIsLogged.colCount_eq]

/-- The rows of a tree, told from its columns. -/
theorem Spans.row_mem_iff_root_or (h : tree.Spans matching root)
    (hconsistent : matching.Consistent) : tree.rows.get row = true ↔
      row = root ∨ ∃ col, tree.cols.get col = true ∧ matching.rowOf col = some row := by
  by_cases hroot : row = root
  · rw [hroot]
    exact iff_of_true h.root_mem (.inl rfl)
  · rw [h.row_mem_iff row hroot, or_iff_right hroot]
    refine exists_congr fun col => ?_
    rw [hconsistent row col, and_comm]

end Tree

namespace Potentials

variable {problem : Problem ℚ size} {potentials : Potentials ℚ size} {delta : ℚ}

theorem sum_marked (marks : Vector Bool size) (delta : ℚ) :
    ∑ index, (if marks.get index then delta else 0) =
      (Finset.univ.filter fun index => marks.get index = true).card * delta := by
  rw [← Finset.sum_filter, Finset.sum_const, nsmul_eq_mul]

/-- Marked rows count for the dual objective, and marked columns against it. -/
theorem dualObjective_tighten (rows cols : Vector Bool size) :
    (potentials.tighten delta rows cols).dualObjective = potentials.dualObjective +
      ((Finset.univ.filter fun row => rows.get row = true).card -
        (Finset.univ.filter fun col => cols.get col = true).card) * delta := by
  have hrows : ∀ row, (potentials.tighten delta rows cols).rows.get row =
      potentials.rows.get row + if rows.get row then delta else 0 := by
    intro row
    rw [rows_tighten]
    split <;> simp
  have hcols : ∀ col, (potentials.tighten delta rows cols).cols.get col =
      potentials.cols.get col - if cols.get col then delta else 0 := by
    intro col
    rw [cols_tighten]
    split <;> simp
  simp only [dualObjective_eq, hrows, hcols, Finset.sum_add_distrib, Finset.sum_sub_distrib,
    sum_marked]
  ring

end Potentials

namespace Problem

def leastOfRow (problem : Problem ℚ size) (row : Fin size) : ℚ :=
  Finset.univ.inf' ⟨row, Finset.mem_univ row⟩ fun col => problem.cost row col

/-- The least cost in a column, each counted from the least cost in its row. -/
def leastOfCol (problem : Problem ℚ size) (col : Fin size) : ℚ :=
  Finset.univ.inf' ⟨col, Finset.mem_univ col⟩ fun row =>
    problem.cost row col - problem.leastOfRow row

end Problem

namespace Potentials

variable {problem : Problem ℚ size}

theorem rows_initial_eq_leastOfRow (problem : Problem ℚ size) (row : Fin size) :
    (initial problem).rows.get row = problem.leastOfRow row := by
  apply le_antisymm
  · exact Finset.le_inf' _ _ fun col _ => initial_rows_le problem row col
  · obtain ⟨col, hcol⟩ := exists_initial_rows_eq problem row
    rw [hcol]
    exact Finset.inf'_le _ (Finset.mem_univ col)

theorem cols_initial_eq_leastOfCol (problem : Problem ℚ size) (col : Fin size) :
    (initial problem).cols.get col = problem.leastOfCol col := by
  obtain ⟨⟨row, hrow⟩, hleast⟩ := isLeast_initial_cols problem col
  simp only [rows_initial_eq_leastOfRow] at hrow hleast
  apply le_antisymm
  · exact Finset.le_inf' _ _ fun other _ => hleast ⟨other, rfl⟩
  · rw [← hrow]
    exact Finset.inf'_le _ (Finset.mem_univ row)

/-- At first the dual objective is what rows and columns cost at least. -/
theorem dualObjective_initial (problem : Problem ℚ size) : (initial problem).dualObjective =
    ∑ row, problem.leastOfRow row + ∑ col, problem.leastOfCol col := by
  simp only [dualObjective_eq, rows_initial_eq_leastOfRow, cols_initial_eq_leastOfCol]

end Potentials

namespace Search

variable {problem : Problem ℚ size} {state middle next last : State ℚ size} {delta : ℚ}
  {path : Path size}

/-- With one row more than columns in the tree, a move raises the dual objective by its number. -/
theorem dualObjective_tighten_of_isTallied (h : state.tree.IsTallied) (delta : ℚ) :
    (state.tighten delta).potentials.dualObjective = state.potentials.dualObjective + delta := by
  have hcount : (state.tree.rowCount : ℚ) = state.tree.colCount + 1 :=
    mod_cast h.rowCount_eq_colCount_add_one
  rw [Tree.rowCount, Tree.colCount] at hcount
  rw [State.tighten, Potentials.dualObjective_tighten, hcount]
  ring

/-- A column that joins the tree leaves the potentials alone. -/
theorem dualObjective_of_step (htallied : state.tree.IsTallied) {base : ℚ}
    (hbase : state.potentials.dualObjective = base + state.tree.deltas.sum)
    (h : Step problem matching state next) :
    next.potentials.dualObjective = base + next.tree.deltas.sum := by
  cases h with
  | @tighten col =>
      have hdeltas : (state.tighten (state.tree.slack.get col)).tree.deltas =
          state.tree.deltas ++ [state.tree.slack.get col] := Tree.deltas_tighten _ _
      rw [dualObjective_tighten_of_isTallied htallied, hbase, hdeltas, List.sum_append,
        List.sum_singleton, add_assoc]
  | @join col row =>
      have hdeltas : ((state.reach col).enter problem row).tree.deltas = state.tree.deltas :=
        state.tree.deltas_reach col
      rw [hdeltas]
      exact hbase

theorem dualObjective_of_steps (h : Steps problem matching (state.plant problem root) next) :
    next.potentials.dualObjective = state.potentials.dualObjective + next.tree.deltas.sum := by
  induction h with
  | refl => exact (add_zero _).symm
  | tail hsteps hstep ih => exact dualObjective_of_step (isTallied_of_steps_plant hsteps) ih hstep

theorem dualObjective_of_run (h : run problem matching state root = (last, .ok path)) :
    last.potentials.dualObjective = state.potentials.dualObjective + last.tree.deltas.sum := by
  obtain ⟨-, middle, col, hsteps, harrives, -⟩ := exists_steps_of_run h
  have hdeltas : (middle.reach col).tree.deltas = middle.tree.deltas := middle.tree.deltas_reach col
  rw [harrives.last_eq, hdeltas]
  exact dualObjective_of_steps hsteps

/-- A move of the potentials by a number above the tolerance, at a tree of the root and the rows
that its columns are matched to. It raises the dual objective by that number. -/
structure Raises (problem : Problem ℚ size) (matching : Matching size) (root : Fin size)
    (state next : State ℚ size) (delta : ℚ) : Prop where
  row_mem_iff : ∀ row, state.tree.rows.get row = true ↔
    row = root ∨ ∃ col, state.tree.cols.get col = true ∧ matching.rowOf col = some row
  rowCount_eq : state.tree.rowCount = state.tree.colCount + 1
  epsilon_lt : problem.epsilon < delta
  dualObjective_eq :
    next.potentials.dualObjective = state.potentials.dualObjective + delta

theorem raises_of_advance (hconsistent : matching.Consistent)
    (hsteps : Steps problem matching (state.plant problem root) middle)
    (hadvance : advance problem matching middle = .grows next)
    (hmoves : next.tree.moves = middle.tree.moves ++ [.tighten delta]) :
    Raises problem matching root middle next delta := by
  have hgrowing : middle.tree.IsGrowing matching root :=
    isGrowing_of_steps hconsistent (Tree.isGrowing_plant _ _ _ _) hsteps
  have htallied := isTallied_of_steps_plant hsteps
  obtain ⟨col, -, hfar, rfl, rfl⟩ := exists_eq_tighten_of_advance hadvance hmoves
  exact {
    row_mem_iff := fun row => hgrowing.toSpans.row_mem_iff_root_or hconsistent
    rowCount_eq := htallied.rowCount_eq_colCount_add_one
    epsilon_lt := hfar
    dualObjective_eq := dualObjective_tighten_of_isTallied htallied _ }

end Search

namespace Stage

variable {problem : Problem ℚ size} {stage : Stage ℚ size} {count : Nat}

/-- All moves of the potentials in all searches so far. -/
theorem Reached.dualObjective_eq (h : Reached problem count stage) :
    stage.solution.potentials.dualObjective =
      ∑ row, problem.leastOfRow row + ∑ col, problem.leastOfCol col +
        (stage.searches.flatMap RowSearch.deltas).sum := by
  induction h with
  | initial => exact (Potentials.dualObjective_initial problem).trans (add_zero _).symm
  | @matchRow stage next row _ hmatch ih =>
      obtain ⟨last, path, hrun, -, rfl⟩ := matchRow_eq_ok_iff.mp hmatch
      calc last.potentials.dualObjective
          = stage.state.potentials.dualObjective + last.tree.deltas.sum :=
            Search.dualObjective_of_run hrun
        _ = ∑ row, problem.leastOfRow row + ∑ col, problem.leastOfCol col +
              ((stage.searches.flatMap RowSearch.deltas).sum + last.tree.deltas.sum) := by
            rw [← add_assoc, ← ih, solution]
        _ = _ := by
            rw [List.flatMap_append, List.sum_append, List.flatMap_singleton]

end Stage

section Answer

variable {matrix : CostMatrix ℚ} {options : Options ℚ} {problem : Problem ℚ matrix.side}
  {searches : List (RowSearch ℚ matrix.side)} {assignment : Assignment ℚ}

theorem Runs.dualBound_eq (h : Runs matrix options searches assignment)
    (hproblem : Problem.normalize matrix options = .ok problem) :
    assignment.dualBound = ∑ row, problem.leastOfRow row + ∑ col, problem.leastOfCol col +
      (searches.flatMap RowSearch.deltas).sum := by
  obtain ⟨normalized, stage, hnormalize, hfinal, rfl, hsolve⟩ := h
  obtain ⟨solved, last, hsolved, hlast, hextract⟩ := solve_eq_ok_iff.mp hsolve
  obtain rfl := Except.ok.inj (hnormalize.symm.trans hproblem)
  obtain rfl := Except.ok.inj (hnormalize.symm.trans hsolved)
  obtain rfl := (Prod.mk.inj (hfinal.symm.trans hlast)).1
  obtain ⟨cost, -, rfl⟩ := Solution.extract_eq_ok_iff.mp hextract
  exact (Stage.reached_of_final hfinal).dualObjective_eq

/-- **Every move of the potentials raises the dual objective by as much.** Whatever the state before
the search, a move is made at a tree with one row more than columns, the root besides the rows that
its columns are matched to, and by more than the tolerance. So the dual bound of every answer is the
sum of the least costs of the rows, of what is left of the columns, and of all moves of the run. -/
theorem raises_and_dualBound_eq :
    (∀ {size : Nat} (problem : Problem ℚ size) (matching : Matching size) (root : Fin size)
        (state middle next : Search.State ℚ size) (delta : ℚ),
      matching.Consistent → matching.colOf root = none →
      Search.Passes problem matching (state.plant problem root) middle →
      Search.advance problem matching middle = .grows next →
      next.tree.moves = middle.tree.moves ++ [.tighten delta] →
      Search.Raises problem matching root middle next delta) ∧
    ∀ (matrix : CostMatrix ℚ) (options : Options ℚ),
      (matrix.Accepts options → ∃ assignment, solve matrix options = .ok assignment) ∧
      ∀ assignment, solve matrix options = .ok assignment →
        ∃ problem searches, Problem.normalize matrix options = .ok problem ∧
          Runs matrix options searches assignment ∧ 0 ≤ problem.epsilon ∧
          assignment.dualBound = ∑ row, problem.leastOfRow row + ∑ col, problem.leastOfCol col +
            (searches.flatMap RowSearch.deltas).sum := by
  refine ⟨?_, fun matrix options => ⟨fun haccepts => ?_, fun assignment hsolve => ?_⟩⟩
  · intro size problem matching root state middle next delta hconsistent _ hpasses hadvance hmoves
    exact Search.raises_of_advance hconsistent hpasses.steps hadvance hmoves
  · obtain ⟨assignment, -, -, -, hsolve, -⟩ := haccepts.exists_solve_eq_ok
    exact ⟨assignment, hsolve⟩
  · obtain ⟨problem, stage, hproblem, hfinal, -⟩ := solve_eq_ok_iff.mp hsolve
    have hruns : Runs matrix options stage.searches assignment :=
      ⟨problem, stage, hproblem, hfinal, rfl, hsolve⟩
    exact ⟨problem, stage.searches, hproblem, hruns,
      not_lt.mp (Problem.epsilon_nonneg_of_normalize hproblem), hruns.dualBound_eq hproblem⟩

def terraced : CostMatrix ℚ where
  data := #[4, 7, 1, 7, 7, 2, 3, 8, 2, 2, 0, 0]
  rows := 4
  cols := 3

def terracedOptions : Options ℚ where
  maximize := true
  disallowed := .ofList [(1, .ofList [0, 2])]
  padValue := 2
  tolerance := 1 / 4

theorem accepts_terraced : terraced.Accepts terracedOptions where
  wellShaped := by decide
  rows_pos := by decide
  cols_pos := by decide
  inside := by decide
  tolerance_nonneg := by decide +kernel

def pairedMatching : Matching 3 :=
  (Matching.empty 3).augment [(⟨0, by decide⟩, ⟨0, by decide⟩), (⟨1, by decide⟩, ⟨1, by decide⟩)]

def plainState : Search.State ℚ 3 where
  tree := .blank
  potentials := { rows := .replicate 3 0, cols := .replicate 3 0 }

open Search in
/-- A move at a tree of two rows and one column, and a run whose potentials move three times. -/
theorem raises_and_dualBound_eq_terraced :
    (∃ middle next, pairedMatching.Consistent ∧ pairedMatching.colOf 2 = none ∧
      Passes Stage.closeProblem pairedMatching (plainState.plant Stage.closeProblem 2) middle ∧
      advance Stage.closeProblem pairedMatching middle = .grows next ∧
      next.tree.moves = [.tighten 3, .reach 0, .tighten 2] ∧
      Raises Stage.closeProblem pairedMatching 2 middle next 2) ∧
    terraced.Accepts terracedOptions ∧
    ∃ assignment problem searches, solve terraced terracedOptions = .ok assignment ∧
      Problem.normalize terraced terracedOptions = .ok problem ∧
      Runs terraced terracedOptions searches assignment ∧
      searches.map RowSearch.deltas = [[], [3], [3, 1], []] ∧
      0 ≤ problem.epsilon ∧
      assignment.dualBound = ∑ row, problem.leastOfRow row + ∑ col, problem.leastOfCol col +
        (searches.flatMap RowSearch.deltas).sum := by
  obtain ⟨hraises, hbound⟩ := raises_and_dualBound_eq
  obtain ⟨hsolves, hdual⟩ := hbound terraced terracedOptions
  refine ⟨?_, accepts_terraced, ?_⟩
  · let start := plainState.plant Stage.closeProblem 2
    let near := start.tighten (start.tree.slack.get 0)
    let middle := (near.reach 0).enter Stage.closeProblem 0
    let next := middle.tighten (middle.tree.slack.get 1)
    have hconsistent : pairedMatching.Consistent := by
      unfold Matching.Consistent
      decide
    have hroot : pairedMatching.colOf 2 = none := by decide
    have hnear : advance Stage.closeProblem pairedMatching start = .grows near :=
      advance_of_step (.tighten (by decide +kernel) (by decide +kernel))
    have hmiddle : advance Stage.closeProblem pairedMatching near = .grows middle :=
      advance_of_step
        (.join (by decide +kernel) (by decide +kernel) (by decide) (by decide +kernel))
    have hnext : advance Stage.closeProblem pairedMatching middle = .grows next :=
      advance_of_step (.tighten (by decide +kernel) (by decide +kernel))
    have hpasses : Passes Stage.closeProblem pairedMatching start middle :=
      (Passes.start.grow hnear).grow hmiddle
    have hmoves : next.tree.moves = [.tighten 3, .reach 0, .tighten 2] := by decide +kernel
    refine ⟨middle, next, hconsistent, hroot, hpasses, hnext, hmoves, ?_⟩
    exact hraises _ _ _ _ _ _ _ hconsistent hroot hpasses hnext (by decide +kernel)
  · obtain ⟨assignment, hsolve⟩ := hsolves accepts_terraced
    obtain ⟨problem, searches, hproblem, hruns, hepsilon, hbound⟩ := hdual assignment hsolve
    obtain ⟨normalized, stage, hnormalize, hfinal, hsearches, -⟩ := id hruns
    have hdeltas : ((Problem.normalize terraced terracedOptions).toOption.map fun problem =>
        (Stage.final problem).1.searches.map RowSearch.deltas) =
          some [[], [3], [3, 1], []] := by decide +kernel
    rw [hnormalize, Except.toOption, Option.map_some, hfinal, hsearches, Option.some.injEq]
      at hdeltas
    exact ⟨assignment, problem, searches, hsolve, hproblem, hruns, hdeltas, hepsilon, hbound⟩

end Answer

end Hungarian
