import Hungarian.Proofs.Potentials.Range
import Hungarian.Proofs.Stage.Slackness

/-!
# The range of the potentials in every state of a run

Every move raises rows and lowers columns of the tree, which are matched ones. So throughout a run
the potentials only depart from the initial ones, and free columns keep theirs; as every search has a
free column to go to, the potentials stay in range.
-/

namespace Hungarian

variable {size : Nat} {problem : Problem ℚ size} {matching : Matching size} {root row col : Fin size}
  {low high : ℚ}

theorem Potentials.Departs.tighten {potentials : Potentials ℚ size}
    (h : potentials.Departs problem matching) {delta : ℚ} (hdelta : 0 ≤ delta)
    {rows cols : Vector Bool size}
    (hmatched : ∀ col, cols.get col = true → (matching.rowOf col).isSome) :
    (potentials.tighten delta rows cols).Departs problem matching where
  rows_ge := fun row =>
    (h.rows_ge row).trans ((potentials.driftsTo_tighten hdelta rows cols).rows_le row)
  cols_le := fun col =>
    ((potentials.driftsTo_tighten hdelta rows cols).cols_ge col).trans (h.cols_le col)
  free_eq := by
    intro col hfree
    rw [cols_tighten, if_neg]
    · exact h.free_eq col hfree
    · intro hcol
      have hsome := hmatched col hcol
      rw [hfree] at hsome
      exact absurd hsome (by simp)

namespace Search

variable {state next : State ℚ size}

theorem departs_of_step (hnonneg : 0 ≤ problem.epsilon)
    (hgrowing : state.tree.IsGrowing matching root)
    (h : state.potentials.Departs problem matching) (hstep : Step problem matching state next) :
    next.potentials.Departs problem matching := by
  cases hstep with
  | tighten _ hfar => exact h.tighten (hnonneg.trans hfar.le) hgrowing.col_matched
  | join => exact h

theorem departs_of_steps (hconsistent : matching.Consistent) (hnonneg : 0 ≤ problem.epsilon)
    (hgrowing : state.tree.IsGrowing matching root)
    (h : state.potentials.Departs problem matching) (hsteps : Steps problem matching state next) :
    next.potentials.Departs problem matching := by
  induction hsteps with
  | refl => exact h
  | tail hsteps hstep ih =>
      exact departs_of_step hnonneg (isGrowing_of_steps hconsistent hgrowing hsteps) ih hstep

end Search

namespace Stage

variable {stage : Stage ℚ size} {root? : Option (Fin size)} {state : Search.State ℚ size}
  {count : Nat}

theorem Reached.departs_of_steps (hnonneg : 0 ≤ problem.epsilon) (h : Reached problem row stage)
    (hdeparts : stage.state.potentials.Departs problem stage.matching)
    (hsteps : Search.Steps problem stage.matching (stage.state.plant problem row) state) :
    state.potentials.Departs problem stage.matching :=
  Search.departs_of_steps h.consistent hnonneg (Tree.isGrowing_plant _ _ _ _)
    (show (stage.state.plant problem row).potentials.Departs problem stage.matching from hdeparts)
    hsteps

theorem Reached.departs (hnonneg : 0 ≤ problem.epsilon) (h : Reached problem count stage) :
    stage.state.potentials.Departs problem stage.matching := by
  induction h with
  | initial => exact Potentials.departs_initial
  | matchRow hstage hmatch ih =>
      obtain ⟨last, path, hrun, -, rfl⟩ := matchRow_eq_ok_iff.mp hmatch
      obtain ⟨haugments, -⟩ := Search.augments_of_run hrun
      obtain ⟨-, middle, col, hsteps, harrives, -⟩ := Search.exists_steps_of_run hrun
      have hmiddle := hstage.departs_of_steps hnonneg ih hsteps
      have hlast : last.potentials = middle.potentials := by
        rw [harrives.last_eq]
        rfl
      rw [hlast]
      exact ⟨hmiddle.rows_ge, hmiddle.cols_le,
        fun other hfree => hmiddle.free_eq other (haugments.rowOf_eq_none_of_augment hfree)⟩

theorem Reached.inRange_of_steps (hnonneg : 0 ≤ problem.epsilon)
    (hcosts : problem.CostsWithin low high) (h : Reached problem row stage)
    (hsteps : Search.Steps problem stage.matching (stage.state.plant problem row) state) :
    state.potentials.InRange problem low high := by
  obtain ⟨col, hfree⟩ := h.consistent.exists_free_col h.root_free
  exact (h.departs_of_steps hnonneg (h.departs hnonneg) hsteps).inRange
    (h.balanced_of_steps hnonneg hsteps).supports h.consistent hnonneg hcosts hfree

theorem Reached.inRange (hnonneg : 0 ≤ problem.epsilon) (hcosts : problem.CostsWithin low high)
    (h : Reached problem count stage) : stage.state.potentials.InRange problem low high := by
  cases h with
  | initial =>
      refine ⟨Potentials.initial_rows_mem hcosts, fun col => ⟨?_, ?_⟩⟩
      · have hinitial := Potentials.initial_cols_nonneg problem col
        have hcost := hcosts col col
        refine le_trans ?_ hinitial
        linarith [hcost.1, hcost.2]
      · exact Potentials.initial_cols_le hcosts col
  | matchRow hstage hmatch =>
      obtain ⟨last, path, hrun, -, rfl⟩ := matchRow_eq_ok_iff.mp hmatch
      obtain ⟨-, middle, col, hsteps, harrives, -⟩ := Search.exists_steps_of_run hrun
      have hmiddle := hstage.inRange_of_steps hnonneg hcosts hsteps
      rw [harrives.last_eq]
      exact hmiddle

theorem inRange_of_visits (hnonneg : 0 ≤ problem.epsilon) (hcosts : problem.CostsWithin low high)
    (h : Visits problem matching root? state) : state.potentials.InRange problem low high := by
  cases h with
  | stage hstage => exact hstage.inRange hnonneg hcosts
  | search hstage hpasses => exact hstage.inRange_of_steps hnonneg hcosts hpasses.steps
  | arrival hstage hpasses hadvance =>
      have hpassed := hstage.inRange_of_steps hnonneg hcosts hpasses.steps
      rw [(Search.arrives_of_advance hadvance).last_eq]
      exact hpassed

end Stage

end Hungarian
