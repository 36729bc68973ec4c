import Hungarian.Proofs.Stage.Balanced

/-!
# Reduced costs in every state of a run

The potentials and the tree of a run over exact numbers keep each other in order. A move of the
potentials leaves matched cells as they are because a row and its column are in the tree together;
it makes no reduced cost negative because the slack of a column is the least reduced cost from the
tree; and a column joins the tree only through a cell within the tolerance.
-/

namespace Hungarian.Stage

variable {size : Nat} {problem : Problem ℚ size} {stage : Stage ℚ size} {row col : Fin size}
  {matching : Matching size} {root? : Option (Fin size)} {state last : Search.State ℚ size}
  {count : Nat}

section Search

variable (hnonneg : 0 ≤ problem.epsilon) (h : Reached problem row stage)
  (hsteps : Search.Steps problem stage.matching (stage.state.plant problem row) state)

include h hsteps in
theorem Reached.isOpen_of_steps : state.tree.IsOpen stage.matching row :=
  Search.isOpen_of_steps h.consistent h.root_free
    (Tree.isOpen_plant fun _ => CostArithmetic.belowCeiling_exact _) hsteps

include hnonneg h hsteps

theorem Reached.balanced_of_steps : Search.Balanced problem stage.matching state :=
  Search.balanced_of_steps hnonneg h.consistent h.root_free
    (Tree.isOpen_plant fun _ => CostArithmetic.belowCeiling_exact _)
    (Search.balanced_plant (h.balanced hnonneg).supports) hsteps

theorem Reached.balanced_of_arrives (harrives : Search.Arrives problem stage.matching state col last) :
    Search.Balanced problem stage.matching last := by
  rw [harrives.last_eq]
  exact (h.balanced_of_steps hnonneg hsteps).reach harrives.closest harrives.near

end Search

/-- The tree that the last search left behind still fits the potentials. -/
theorem Reached.parent_near (hnonneg : 0 ≤ problem.epsilon) (h : Reached problem count stage)
    (hcol : stage.state.tree.cols.get col = true) :
    stage.state.potentials.reducedCost problem (stage.state.tree.parent.get col) col ≤
      problem.epsilon := by
  cases h with
  | initial =>
      have hblank : (Stage.initial problem).state.tree.cols.get col = false := get_replicate _ _
      rw [hblank] at hcol
      exact absurd hcol (by simp)
  | matchRow hstage hmatch =>
      obtain ⟨last, path, hrun, -, rfl⟩ := matchRow_eq_ok_iff.mp hmatch
      obtain ⟨-, middle, free, hsteps, harrives, -⟩ := Search.exists_steps_of_run hrun
      exact (hstage.balanced_of_arrives hnonneg hsteps harrives).parent_near col hcol

theorem balanced_of_visits (hnonneg : 0 ≤ problem.epsilon)
    (h : Visits problem matching (some row) state) : Search.Balanced problem matching state := by
  cases h with
  | search hstage hpasses => exact hstage.balanced_of_steps hnonneg hpasses.steps
  | arrival hstage hpasses hadvance =>
      exact hstage.balanced_of_arrives hnonneg hpasses.steps (Search.arrives_of_advance hadvance)

theorem spans_of_visits (h : Visits problem matching (some row) state) :
    state.tree.Spans matching row := by
  cases h with
  | search hstage hpasses => exact (hstage.isOpen_of_steps hpasses.steps).toSpans
  | arrival hstage hpasses hadvance =>
      exact Search.spans_of_arrives hstage.consistent
        (hstage.isOpen_of_steps hpasses.steps).toIsGrowing (Search.arrives_of_advance hadvance)

theorem supports_of_visits (hnonneg : 0 ≤ problem.epsilon)
    (h : Visits problem matching root? state) : state.potentials.Supports problem matching := by
  cases root? with
  | none =>
      cases h with
      | stage hstage => exact (hstage.balanced hnonneg).supports
  | some root => exact (balanced_of_visits hnonneg h).supports

theorem parent_near_of_visits (hnonneg : 0 ≤ problem.epsilon)
    (h : Visits problem matching root? state) (hcol : state.tree.cols.get col = true) :
    state.potentials.reducedCost problem (state.tree.parent.get col) col ≤ problem.epsilon := by
  cases root? with
  | none =>
      cases h with
      | stage hstage => exact hstage.parent_near hnonneg hcol
  | some root => exact (balanced_of_visits hnonneg h).parent_near col hcol

/-- **The primal-dual invariant.** In every state that a run passes through no reduced cost is
negative, those of the matched cells and of the cells that joined a column to the tree are at most
the tolerance, and during a search a row other than the root is in the tree exactly when the column
that it is matched to is. -/
theorem reducedCost_bounds_of_visits (hnonneg : 0 ≤ problem.epsilon)
    (h : Visits problem matching root? state) :
    (∀ row col, 0 ≤ state.potentials.reducedCost problem row col) ∧
    (∀ row col, matching.colOf row = some col →
      state.potentials.reducedCost problem row col ∈ Set.Icc 0 problem.epsilon) ∧
    (∀ col, state.tree.cols.get col = true →
      state.potentials.reducedCost problem (state.tree.parent.get col) col ∈
        Set.Icc 0 problem.epsilon) ∧
    ∀ root, root? = some root → ∀ row, row ≠ root → (state.tree.rows.get row = true ↔
      ∃ col, matching.colOf row = some col ∧ state.tree.cols.get col = true) := by
  have hsupports := supports_of_visits hnonneg h
  refine ⟨hsupports.feasible, ?_, ?_, ?_⟩
  · intro row col hmatched
    exact ⟨hsupports.feasible row col, hsupports.matched_near row col hmatched⟩
  · intro col hcol
    exact ⟨hsupports.feasible _ col, parent_near_of_visits hnonneg h hcol⟩
  · rintro root rfl
    exact (spans_of_visits h).row_mem_iff

/-- At the end of the last search all columns are in the tree, the middle one through a cell that
costs the whole tolerance more than its potentials. -/
theorem exists_visits_productProblem : 0 ≤ productProblem.epsilon ∧
    ∃ matching state, Visits productProblem matching (some 2) state ∧
      state.tree.reached = [0, 1, 2] ∧ state.tree.parent.get 1 = 1 ∧
      state.potentials.reducedCost productProblem 1 1 = productProblem.epsilon ∧
      (∀ row col, 0 ≤ state.potentials.reducedCost productProblem row col) ∧
      (∀ row col, matching.colOf row = some col →
        state.potentials.reducedCost productProblem row col ∈
          Set.Icc 0 productProblem.epsilon) ∧
      (∀ col, state.tree.cols.get col = true →
        state.potentials.reducedCost productProblem (state.tree.parent.get col) col ∈
          Set.Icc 0 productProblem.epsilon) ∧
      ∀ root, some 2 = some root → ∀ row, row ≠ root → (state.tree.rows.get row = true ↔
        ∃ col, matching.colOf row = some col ∧ state.tree.cols.get col = true) := by
  have hnonneg : 0 ≤ productProblem.epsilon := by decide +kernel
  let first := ((initial productProblem).matchRow productProblem 0).1
  let second := (first.matchRow productProblem 1).1
  have hfirst : (initial productProblem).matchRow productProblem 0 = (first, .ok ()) :=
    Prod.ext rfl (by decide +kernel)
  have hsecond : first.matchRow productProblem 1 = (second, .ok ()) :=
    Prod.ext rfl (by decide +kernel)
  have hthird : second.matchRow productProblem 2 =
      ((second.matchRow productProblem 2).1, .ok ()) := Prod.ext rfl (by decide +kernel)
  have hinitial : Reached productProblem (0 : Fin 3) (initial productProblem) := .initial
  have hone : Reached productProblem (1 : Fin 3) first := hinitial.matchRow hfirst
  have htwo : Reached productProblem (2 : Fin 3) second := hone.matchRow hsecond
  have hvisits := htwo.visits_of_matchRow hthird
  refine ⟨hnonneg, _, _, hvisits, ?_, ?_, ?_, reducedCost_bounds_of_visits hnonneg hvisits⟩
  · decide +kernel
  · decide +kernel
  · decide +kernel

end Hungarian.Stage
