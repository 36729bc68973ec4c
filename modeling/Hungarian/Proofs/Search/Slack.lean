import Hungarian.Proofs.Search.Balanced
import Hungarian.Proofs.Search.Rescan

/-!
# Slacks that are kept

The slack of a column is never computed, it is kept: a row that enters may lower it, and a move of
the potentials takes the same amount from all columns outside. Measured by the plain search, which
computes every distance anew, a kept slack is always the distance and a kept parent always the
nearest row. So both searches take the same columns, move the potentials alike and find the same path.
-/

namespace Hungarian

open CostArithmetic

namespace Tree

variable {size : Nat}

/-- The closest column is the one of least slack, of several the lowest. -/
theorem closest?_eq_argmin (tree : Tree ℚ size) : tree.closest? =
    ((List.finRange size).filter fun col => !tree.cols.get col).argmin tree.slack.get := by
  rw [closest?, List.argmin, List.foldl_filter]
  congr
  funext best col
  unfold closer List.argAux
  cases tree.cols.get col <;> cases best <;> simp [precedes]

end Tree

namespace Rescan

open Search

variable {size : Nat} {problem : Problem ℚ size} {matching : Matching size} {root row col : Fin size}
  {path : Path size} {scan : Rescan size} {state next last : State ℚ size}

structure Shares (scan : Rescan size) (state : State ℚ size) : Prop where
  rows_eq : state.tree.rows = marks scan.rows
  cols_eq : state.tree.cols = marks scan.cols
  moves_eq : state.tree.moves = scan.moves
  potentials_eq : state.potentials = scan.potentials

/-- A plain search and a state whose slacks and parents are what the plain search computes. The path
of a row of the tree is the way back from the column that the row is matched to. -/
structure Follows (problem : Problem ℚ size) (matching : Matching size) (root : Fin size)
    (scan : Rescan size) (state : State ℚ size) : Prop extends Shares scan state where
  nearest : ∀ col, state.tree.cols.get col = false →
    ∃ path, scan.nearest? problem col = some (state.tree.parent.get col, path)
  slack_eq : ∀ col, state.tree.cols.get col = false → state.tree.slack.get col =
    state.potentials.reducedCost problem (state.tree.parent.get col) col
  root_mem : root ∈ scan.rows
  entered_cases : ∀ entry ∈ scan.entered, entry = (root, []) ∨
    entry.1 ≠ root ∧ ∃ col, matching.colOf entry.1 = some col ∧
      state.tree.LeadsBack matching root col entry.2 ∧
      ∀ cell ∈ entry.2, state.tree.cols.get cell.2 = true

namespace Shares

variable (h : scan.Shares state)

include h

theorem reach (col : Fin size) : (scan.reach col).Shares (state.reach col) where
  rows_eq := h.rows_eq
  cols_eq := by
    rw [cols_reach, ← set_marks, ← h.cols_eq]
    rfl
  moves_eq := congrArg (· ++ [Move.reach col]) h.moves_eq
  potentials_eq := h.potentials_eq

theorem enter (row : Fin size) (path : Path size) :
    (scan.enter row path).Shares (state.enter problem row) where
  rows_eq := by
    rw [rows_enter, ← set_marks, ← h.rows_eq]
    rfl
  cols_eq := h.cols_eq
  moves_eq := h.moves_eq
  potentials_eq := h.potentials_eq

theorem tighten (delta : ℚ) : (scan.tighten delta).Shares (state.tighten delta) where
  rows_eq := h.rows_eq
  cols_eq := by
    rw [cols_tighten]
    exact h.cols_eq
  moves_eq := congrArg (· ++ [Move.tighten delta]) h.moves_eq
  potentials_eq := by
    rw [State.tighten, Rescan.tighten, h.rows_eq, h.cols_eq, h.potentials_eq]

theorem row_mem_iff : state.tree.rows.get row = true ↔ row ∈ scan.rows := by
  rw [h.rows_eq, get_marks, decide_eq_true_iff]

end Shares

/-- A planted tree has the slacks of a scan of its root. -/
theorem follows_plant (problem : Problem ℚ size) (matching : Matching size) (state : State ℚ size)
    (root : Fin size) :
    (plant state.potentials root).Follows problem matching root (state.plant problem root) where
  rows_eq := by
    have hrows : (plant state.potentials root).rows = [] ++ [root] := rfl
    rw [hrows, ← set_marks, marks_nil]
    rfl
  cols_eq := marks_nil.symm
  moves_eq := rfl
  potentials_eq := rfl
  nearest col _ := ⟨[], by
    rw [State.plant, Tree.parent_plant]
    exact List.argmin_singleton⟩
  slack_eq := by
    intro col _
    rw [State.plant, Tree.slack_plant, Tree.parent_plant]
    rfl
  root_mem := List.mem_singleton_self root
  entered_cases entry hentry := .inl (List.mem_singleton.mp hentry)

/-- The row of a column that joins is no parent of the columns inside. -/
theorem leadsBack_join {other : Fin size} (hpath : state.tree.LeadsBack matching root other path)
    (hinside : ∀ cell ∈ path, (state.reach col).tree.cols.get cell.2 = true) :
    ((state.reach col).enter problem row).tree.LeadsBack matching root other path :=
  hpath.congr fun cell hcell => Tree.parent_enter_of_mem (hinside cell hcell)

namespace Follows

variable (h : scan.Follows problem matching root state)

include h

/-- A slack that is kept up to date is the least reduced cost over the rows of the tree. -/
theorem isLeast_slack (hcol : state.tree.cols.get col = false) :
    IsLeast { cost | ∃ row, state.tree.rows.get row = true ∧
      state.potentials.reducedCost problem row col = cost } (state.tree.slack.get col) := by
  obtain ⟨path, hnearest⟩ := h.nearest col hcol
  have hleast := isLeast_of_nearest? hnearest
  simp only [h.row_mem_iff, h.slack_eq col hcol, h.potentials_eq]
  exact hleast

theorem distance_eq_slack (hcol : state.tree.cols.get col = false) :
    scan.distance problem col = state.tree.slack.get col := by
  obtain ⟨path, hnearest⟩ := h.nearest col hcol
  rw [distance_eq hnearest, h.slack_eq col hcol, h.potentials_eq]

theorem closest?_eq : scan.closest? problem = state.tree.closest? := by
  have houtside : (List.finRange size).filter (· ∉ scan.cols) =
      (List.finRange size).filter fun col => !state.tree.cols.get col := by
    simp only [h.cols_eq, get_marks, decide_not]
  rw [Tree.closest?_eq_argmin, closest?, houtside]
  refine argmin_eq_of_le_iff fun col hcol other hother => ?_
  have hslack : ∀ col ∈ (List.finRange size).filter fun col => !state.tree.cols.get col,
      scan.distance problem col = state.tree.slack.get col := by
    intro col hcol
    exact h.distance_eq_slack (by simpa using hcol)
  rw [hslack col hcol, hslack other hother]

/-- The path to a column outside is the way back from it. -/
theorem leadsBack_pathTo (hcol : state.tree.cols.get col = false) :
    state.tree.LeadsBack matching root col (scan.pathTo problem col) := by
  obtain ⟨path, hnearest⟩ := h.nearest col hcol
  rw [pathTo, hnearest, Option.elim_some]
  rcases h.entered_cases _ (List.argmin_mem hnearest) with hroot | ⟨hne, next, hnext, hpath, -⟩
  · obtain ⟨hparent, hnil⟩ := Prod.mk.inj hroot
    rw [hparent, hnil]
    exact .arrive hparent
  · exact .pass hne hnext hpath

theorem inside_of_mem_pathTo (hcol : state.tree.cols.get col = false) {cell : Fin size × Fin size}
    (hcell : cell ∈ scan.pathTo problem col) : (state.reach col).tree.cols.get cell.2 = true := by
  obtain ⟨path, hnearest⟩ := h.nearest col hcol
  rw [pathTo, hnearest, Option.elim_some] at hcell
  rcases List.mem_append.mp hcell with hpath | hlast
  · rcases h.entered_cases _ (List.argmin_mem hnearest) with hroot | ⟨-, next, -, -, hinside⟩
    · rw [(Prod.mk.inj hroot).2] at hpath
      exact absurd hpath List.not_mem_nil
    · exact inside_reach (hinside cell hpath)
  · rw [List.mem_singleton.mp hlast]
    exact (Tree.cols_reach state.tree col col).trans (if_pos rfl)

theorem tighten (delta : ℚ) :
    (scan.tighten delta).Follows problem matching root (state.tighten delta) where
  toShares := h.toShares.tighten delta
  nearest := by
    intro col hcol
    replace hcol : state.tree.cols.get col = false := hcol
    have hfalls : ∀ row ∈ scan.rows,
        (scan.tighten delta).potentials.reducedCost problem row col =
          scan.potentials.reducedCost problem row col - delta := by
      intro row hrow
      rw [← (h.toShares.tighten delta).potentials_eq, ← h.potentials_eq]
      exact reducedCost_tighten_of_leaving (h.row_mem_iff.mpr hrow) hcol
    rw [nearest?_tighten hfalls]
    exact h.nearest col hcol
  slack_eq := by
    intro col hcol
    obtain ⟨path, hnearest⟩ := h.nearest col hcol
    have hparent := h.row_mem_iff.mpr (mem_rows_of_nearest? hnearest)
    exact slack_eq_tighten (h.slack_eq col hcol) hcol hparent
  root_mem := h.root_mem
  entered_cases := by
    intro entry hentry
    refine (h.entered_cases entry hentry).imp_right (And.imp_right ?_)
    rintro ⟨next, hnext, hpath, hinside⟩
    exact ⟨next, hnext, hpath.congr fun _ _ => rfl, hinside⟩

/-- The row of a column that joins comes over the path to that column. -/
theorem join (hconsistent : matching.Consistent) (hcol : state.tree.cols.get col = false)
    (hmatched : matching.rowOf col = some row) (hfresh : state.tree.rows.get row = false) :
    ((scan.reach col).enter row (scan.pathTo problem col)).Follows problem matching root
      ((state.reach col).enter problem row) where
  toShares := (h.toShares.reach col).enter row _
  nearest := by
    intro other hother
    obtain ⟨path, hnearest⟩ := h.nearest other (outside_of_outside_reach hother)
    have hreach : (scan.reach col).nearest? problem other =
        some (state.tree.parent.get other, path) := hnearest
    have hslack := h.slack_eq other (outside_of_outside_reach hother)
    rw [nearest?_enter hreach]
    rcases join_cases hother with ⟨hless, -, hparent⟩ | ⟨hnot, -, hparent⟩
    · rw [hslack, h.potentials_eq] at hless
      refine ⟨scan.pathTo problem col, (if_pos hless).trans ?_⟩
      rw [hparent]
    · rw [hslack, h.potentials_eq] at hnot
      refine ⟨path, (if_neg hnot).trans ?_⟩
      rw [hparent]
  slack_eq := fun other hother =>
    slack_eq_join (h.slack_eq other (outside_of_outside_reach hother)) hother
  root_mem := by
    rw [rows_enter]
    exact List.mem_append_left _ h.root_mem
  entered_cases := by
    intro entry hentry
    rcases List.mem_append.mp hentry with hold | hnew
    · refine (h.entered_cases entry hold).imp_right (And.imp_right ?_)
      rintro ⟨next, hnext, hpath, hinside⟩
      have hreach : ∀ cell ∈ entry.2, (state.reach col).tree.cols.get cell.2 = true :=
        fun cell hcell => inside_reach (hinside cell hcell)
      exact ⟨next, hnext, leadsBack_join hpath hreach, hreach⟩
    · obtain rfl := List.mem_singleton.mp hnew
      have hne : row ≠ root := by
        rintro rfl
        rw [h.row_mem_iff.mpr h.root_mem] at hfresh
        exact absurd hfresh (by simp)
      have hreach : ∀ cell ∈ scan.pathTo problem col,
          (state.reach col).tree.cols.get cell.2 = true := fun cell =>
        h.inside_of_mem_pathTo hcol
      exact .inr ⟨hne, col, (hconsistent row col).mpr hmatched,
        leadsBack_join (h.leadsBack_pathTo hcol) hreach, hreach⟩

end Follows

/-- The same end of a search and of a plain one, whose path is the way back from the column at which
the search ends. -/
inductive Agrees (matching : Matching size) (root : Fin size) :
    State ℚ size × Except SearchError (Fin size) →
      Rescan size × Except SearchError (Path size) → Prop
  | arrives {last : State ℚ size} {scan : Rescan size} {col : Fin size} {path : Path size}
      (hshares : scan.Shares last) (hpath : last.tree.LeadsBack matching root col path) :
      Agrees matching root (last, .ok col) (scan, .ok path)
  | breaks {last : State ℚ size} {scan : Rescan size} {error : SearchError}
      (hshares : scan.Shares last) : Agrees matching root (last, .error error) (scan, .error error)

section Consistent

variable (hconsistent : matching.Consistent)

include hconsistent

theorem exists_follows_of_step (h : scan.Follows problem matching root state)
    (hstep : Step problem matching state next) :
    ∃ scan : Rescan size, scan.Follows problem matching root next := by
  cases hstep with
  | tighten => exact ⟨_, h.tighten _⟩
  | join hclosest _ hmatched hfresh =>
      exact ⟨_, h.join hconsistent (Tree.outside_of_closest? hclosest) hmatched hfresh⟩

theorem exists_follows_of_steps (h : scan.Follows problem matching root state)
    (hsteps : Steps problem matching state next) :
    ∃ scan : Rescan size, scan.Follows problem matching root next := by
  induction hsteps with
  | refl => exact ⟨scan, h⟩
  | tail _ hstep ih =>
      obtain ⟨middle, hmiddle⟩ := ih
      exact exists_follows_of_step hconsistent hmiddle hstep

/-- The two searches take the same steps, and end the same way when they are cut off. -/
theorem Follows.agrees_explore (h : scan.Follows problem matching root state) (steps : Nat) :
    Agrees matching root (Search.explore problem matching steps state)
      (explore problem matching steps scan) := by
  induction steps generalizing state scan with
  | zero => exact .breaks h.toShares
  | succ steps ih =>
      rw [Search.explore, explore, h.closest?_eq]
      cases hclosest : state.tree.closest? with
      | none =>
          rw [advance, hclosest]
          exact .breaks h.toShares
      | some col =>
          have hcol := Tree.outside_of_closest? hclosest
          dsimp only
          rw [h.distance_eq_slack hcol]
          by_cases hfar : problem.epsilon < state.tree.slack.get col
          · rw [advance_of_step (.tighten hclosest hfar), if_pos hfar]
            exact ih (h.tighten _)
          · rw [advance_eq_join hclosest hfar, if_neg hfar, State.join]
            cases hmatched : matching.rowOf col with
            | none =>
                have hlast := (h.leadsBack_pathTo hcol).congr fun _ _ =>
                  (rfl : (state.reach col).tree.parent.get _ = _)
                exact .arrives (h.toShares.reach col) hlast
            | some row =>
                dsimp only
                have hrow : (state.reach col).tree.rows.get row = true ↔ row ∈ scan.rows :=
                  h.row_mem_iff
                by_cases hvisited : row ∈ scan.rows
                · rw [if_pos (hrow.mpr hvisited), if_pos hvisited]
                  exact .breaks (h.toShares.reach col)
                · have hfresh := mt hrow.mp hvisited
                  rw [if_neg hfresh, if_neg hvisited]
                  exact ih (h.join hconsistent hcol hmatched (Bool.eq_false_of_not_eq_true hfresh))

end Consistent

end Rescan

namespace Search

variable {size : Nat} {problem : Problem ℚ size} {matching : Matching size} {root : Fin size}

theorem isLeast_slack_of_passes (hconsistent : matching.Consistent) {state middle : State ℚ size}
    (hpasses : Passes problem matching (state.plant problem root) middle) {col : Fin size}
    (hcol : middle.tree.cols.get col = false) :
    IsLeast { cost | ∃ row, middle.tree.rows.get row = true ∧
      middle.potentials.reducedCost problem row col = cost } (middle.tree.slack.get col) := by
  obtain ⟨scan, hscan⟩ := Rescan.exists_follows_of_steps hconsistent
    (Rescan.follows_plant problem matching state root) hpasses.steps
  exact hscan.isLeast_slack hcol

/-- **Slacks and parents are never out of date.** Over exact numbers and from any potentials, a
search from a free row of a consistent matching is the plain search: it takes in the same columns and
moves the potentials by the same amounts, in the same order, leaves the same potentials and ends the
same way, with a path unless the tolerance is negative. Before each of its steps the slack of every
column outside is the least reduced cost over the rows of the tree. -/
theorem run_eq_rescan (hconsistent : matching.Consistent) (hroot : matching.colOf root = none)
    (state : State ℚ size) :
    ∃ last scan answer, run problem matching state root = (last, answer) ∧
      Rescan.run problem matching state.potentials root = (scan, answer) ∧
      last.tree.moves = scan.moves ∧ last.potentials = scan.potentials ∧
      (0 ≤ problem.epsilon → ∃ path, answer = .ok path) ∧
      ∀ middle, Passes problem matching (state.plant problem root) middle →
        ∀ col, middle.tree.cols.get col = false →
          IsLeast { cost | ∃ row, middle.tree.rows.get row = true ∧
            middle.potentials.reducedCost problem row col = cost } (middle.tree.slack.get col) := by
  have hplant := Rescan.follows_plant problem matching state root
  have hslack := fun middle (hpasses : Passes problem matching (state.plant problem root) middle)
      col (hcol : middle.tree.cols.get col = false) =>
    isLeast_slack_of_passes hconsistent hpasses hcol
  have hagrees := hplant.agrees_explore hconsistent (2 * size + 1)
  rcases hexplore : explore problem matching (2 * size + 1) (state.plant problem root) with
    ⟨last, ending⟩
  rcases hplain : Rescan.run problem matching state.potentials root with ⟨scan, answer⟩
  rw [Rescan.run] at hplain
  rw [hexplore, hplain] at hagrees
  cases hagrees with
  | @arrives _ _ col path hshares hpath =>
      have hrun := run_eq_ok_iff.mpr ⟨hroot, col, hexplore, hpath⟩
      exact ⟨last, scan, .ok path, hrun, rfl, hshares.moves_eq, hshares.potentials_eq,
        fun _ => ⟨path, rfl⟩, hslack⟩
  | @breaks _ _ error hshares =>
      refine ⟨last, scan, .error error, run_of_broken hroot hexplore, rfl, hshares.moves_eq,
        hshares.potentials_eq, fun hnonneg => ?_, hslack⟩
      obtain ⟨other, col, hother⟩ :=
        exists_explore_plant_eq_ok hconsistent hroot (progresses hnonneg) state
      rw [hexplore] at hother
      exact nomatch (Prod.mk.inj hother).2

/-- Two columns at the same distance from the root, and a third that is as near to the root as to
the rows that enter after it. -/
def tiedProblem : Problem ℚ 4 where
  rows := 4
  cols := 4
  costs := ⟨#v[#v[0, 2, 3, 9], #v[2, 0, 3, 9], #v[1, 1, 4, 4], #v[0, 0, 0, 0]]⟩
  forbidden := .ofFn fun _ _ => false
  sentinel := 46
  epsilon := 0

def diagonalMatching : Matching 4 where
  cols := .ofFn fun row => if row.val < 2 then some row else none
  rows := .ofFn fun col => if col.val < 2 then some col else none

def levelState : State ℚ 4 where
  tree := { (Tree.blank : Tree ℚ 4) with parent := .replicate 4 (Fin.last 3) }
  potentials := { rows := #v[0, 0, 0, 0], cols := #v[0, 0, 0, 0] }

/-- Ties go to the lower column and to the row that entered first, here the root. -/
theorem run_eq_rescan_tied : diagonalMatching.Consistent ∧ diagonalMatching.colOf 2 = none ∧
    ∃ last scan answer, run tiedProblem diagonalMatching levelState 2 = (last, answer) ∧
      Rescan.run tiedProblem diagonalMatching levelState.potentials 2 = (scan, answer) ∧
      last.tree.moves = [.tighten 1, .reach 0, .reach 1, .tighten 3, .reach 2] ∧
      answer = .ok [(2, 2)] ∧
      last.tree.moves = scan.moves ∧ last.potentials = scan.potentials := by
  have hconsistent : diagonalMatching.Consistent := by
    unfold Matching.Consistent
    decide
  have hroot : diagonalMatching.colOf 2 = none := by decide
  obtain ⟨last, scan, answer, hrun, hplain, hmoves, hpotentials, -⟩ :=
    @run_eq_rescan 4 tiedProblem _ _ hconsistent hroot levelState
  have hlast : (run tiedProblem diagonalMatching levelState 2).1.tree.moves =
      [.tighten 1, .reach 0, .reach 1, .tighten 3, .reach 2] := by decide +kernel
  have hanswer : (run tiedProblem diagonalMatching levelState 2).2 = .ok [(2, 2)] := by
    decide +kernel
  rw [hrun] at hlast hanswer
  exact ⟨hconsistent, hroot, last, scan, answer, hrun, hplain, hlast, hanswer, hmoves, hpotentials⟩

end Search

end Hungarian
