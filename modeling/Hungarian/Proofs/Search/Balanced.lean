import Hungarian.Proofs.Potentials.Furthest
import Hungarian.Proofs.Search.Alternating

/-!
# Potentials along a search

Over exact numbers a search keeps the potentials feasible and lets no cell of the matching or of the
tree cost more than the tolerance beyond its potentials. Both rest on the slack of a column being
the least reduced cost from the tree, attained at its parent.
-/

namespace Hungarian

open CostArithmetic

variable {size : Nat} {problem : Problem ℚ size} {matching : Matching size}
  {root row col : Fin size} {path : Path size}

namespace Tree

variable {tree : Tree ℚ size}

theorem slack_le_of_closest? (h : tree.closest? = some col) {other : Fin size}
    (hother : tree.cols.get other = false) : tree.slack.get col ≤ tree.slack.get other :=
  key_le_of_closest? id (fun _ _ => rfl) h hother

end Tree

namespace Search

variable {state next last : State ℚ size}

theorem progresses (hnonneg : 0 ≤ problem.epsilon) : Progresses problem := by
  intro tree col hclosest hfar
  have hcol := Tree.outside_of_closest? hclosest
  obtain ⟨other, hother⟩ : ∃ other, (tree.tighten (tree.slack.get col)).closest? = some other :=
    Tree.exists_closest?_eq_some hcol
  refine ⟨other, hother, ?_⟩
  have hle := Tree.slack_le_of_closest? hother hcol
  rw [Tree.slack_tighten _ _ col, hcol] at hle
  have hzero : tree.slack.get col - tree.slack.get col = 0 := sub_self _
  intro hlt
  simp only [Bool.false_eq_true, if_false] at hle
  linarith

structure Balanced (problem : Problem ℚ size) (matching : Matching size) (state : State ℚ size) :
    Prop where
  supports : state.potentials.Supports problem matching
  slack_eq : ∀ col, state.tree.cols.get col = false → state.tree.slack.get col =
    state.potentials.reducedCost problem (state.tree.parent.get col) col
  slack_le : ∀ row col, state.tree.rows.get row = true → state.tree.cols.get col = false →
    state.tree.slack.get col ≤ state.potentials.reducedCost problem row col
  parent_near : ∀ col, state.tree.cols.get col = true →
    state.potentials.reducedCost problem (state.tree.parent.get col) col ≤ problem.epsilon

theorem balanced_plant (h : state.potentials.Supports problem matching) :
    Balanced problem matching (state.plant problem root) where
  supports := h
  slack_eq := by
    intro col _
    rw [State.plant, Tree.slack_plant, Tree.parent_plant]
    rfl
  slack_le := by
    intro row col hrow _
    have hroot : row = root := by
      rw [State.plant, Tree.rows_plant] at hrow
      exact of_decide_eq_true hrow
    rw [State.plant, Tree.slack_plant, hroot]
    exact le_refl _
  parent_near := by
    intro col hcol
    rw [State.plant, Tree.cols_plant] at hcol
    exact absurd hcol (by simp)

/-- A matched cell, and a cell of a tree column and a tree row, keeps its reduced cost. -/
theorem reducedCost_tighten_of_iff {delta : ℚ}
    (h : state.tree.rows.get row = true ↔ state.tree.cols.get col = true) :
    (state.tighten delta).potentials.reducedCost problem row col =
      state.potentials.reducedCost problem row col := by
  rw [State.tighten]
  exact Potentials.reducedCost_tighten_of_iff h

theorem reducedCost_tighten_of_leaving {delta : ℚ} (hrow : state.tree.rows.get row = true)
    (hcol : state.tree.cols.get col = false) :
    (state.tighten delta).potentials.reducedCost problem row col =
      state.potentials.reducedCost problem row col - delta := by
  rw [State.tighten]
  exact Potentials.reducedCost_tighten_of_leaves ⟨hrow, hcol⟩

section ParentSlacks

variable (hslack : state.tree.slack.get col =
  state.potentials.reducedCost problem (state.tree.parent.get col) col)

include hslack

/-- A move lowers slacks as it lowers reduced costs. -/
theorem slack_eq_tighten {delta : ℚ} (hcol : state.tree.cols.get col = false)
    (hparent : state.tree.rows.get (state.tree.parent.get col) = true) :
    (state.tighten delta).tree.slack.get col =
      (state.tighten delta).potentials.reducedCost problem (state.tree.parent.get col) col := by
  rw [reducedCost_tighten_of_leaving hparent hcol, ← hslack]
  refine (Tree.slack_tighten _ _ col).trans ?_
  rw [hcol]
  rfl

theorem slack_eq_join {other : Fin size} (hcol : (state.reach other).tree.cols.get col = false) :
    ((state.reach other).enter problem row).tree.slack.get col =
      state.potentials.reducedCost problem
        (((state.reach other).enter problem row).tree.parent.get col) col := by
  rcases join_cases hcol with ⟨-, hnew, hparent⟩ | ⟨-, hold, hparent⟩
  · rw [hnew, hparent]
  · rw [hold, hparent]
    exact hslack

end ParentSlacks

namespace Balanced

variable (h : Balanced problem matching state)

include h

theorem slack_mem (hcol : state.tree.cols.get col = false) {group : AddSubgroup ℚ}
    (hgroup : ∀ row col, problem.cost row col ∈ group) : state.tree.slack.get col ∈ group := by
  rw [h.slack_eq col hcol]
  exact h.supports.generated.reducedCost_mem hgroup _ _

/-- A move by the least slack leaves the potentials feasible. -/
theorem supports_tighten (hopen : state.tree.IsOpen matching root)
    (hnonneg : 0 ≤ problem.epsilon) (hroot : matching.colOf root = none)
    (hclosest : state.tree.closest? = some col)
    (hfar : problem.epsilon < state.tree.slack.get col) :
    (state.tighten (state.tree.slack.get col)).potentials.Supports problem matching where
  feasible := by
    refine h.supports.feasible.tighten (hnonneg.trans hfar.le) fun row other hleaves => ?_
    have hleast := Tree.slack_le_of_closest? hclosest hleaves.2
    exact hleast.trans (h.slack_le row other hleaves.1 hleaves.2)
  generated := h.supports.generated.tighten fun group hgroup =>
    h.slack_mem (Tree.outside_of_closest? hclosest) hgroup
  matched_near := by
    intro row other hmatched
    rw [reducedCost_tighten_of_iff (hopen.row_mem_iff_of_matched hroot hmatched)]
    exact h.supports.matched_near row other hmatched

theorem tighten (hopen : state.tree.IsOpen matching root) (hnonneg : 0 ≤ problem.epsilon)
    (hroot : matching.colOf root = none) (hclosest : state.tree.closest? = some col)
    (hfar : problem.epsilon < state.tree.slack.get col) :
    Balanced problem matching (state.tighten (state.tree.slack.get col)) where
  supports := h.supports_tighten hopen hnonneg hroot hclosest hfar
  slack_eq := fun other hother =>
    slack_eq_tighten (h.slack_eq other hother) hother (hopen.parent_mem other)
  slack_le := by
    intro row other hrow hother
    replace hrow : state.tree.rows.get row = true := hrow
    replace hother : state.tree.cols.get other = false := hother
    rw [reducedCost_tighten_of_leaving hrow hother]
    have hslack := h.slack_le row other hrow hother
    have hnew : (state.tighten (state.tree.slack.get col)).tree.slack.get other =
        state.tree.slack.get other - state.tree.slack.get col := by
      refine (Tree.slack_tighten _ _ other).trans ?_
      rw [hother]
      rfl
    rw [hnew]
    linarith
  parent_near := by
    intro other hother
    replace hother : state.tree.cols.get other = true := hother
    refine le_trans (le_of_eq ?_) (h.parent_near other hother)
    exact reducedCost_tighten_of_iff (iff_of_true (hopen.parent_mem other) hother)

/-- A column joins through a cell within the tolerance. -/
theorem parent_near_reach (hclosest : state.tree.closest? = some col)
    (hnear : ¬problem.epsilon < state.tree.slack.get col) {other : Fin size}
    (hother : (state.reach col).tree.cols.get other = true) :
    state.potentials.reducedCost problem (state.tree.parent.get other) other ≤
      problem.epsilon := by
  have hreach := (Tree.cols_reach state.tree col other).symm.trans hother
  split at hreach
  · next heq =>
      rw [heq, ← h.slack_eq col (Tree.outside_of_closest? hclosest)]
      exact not_lt.mp hnear
  · exact h.parent_near other hreach

theorem reach (hclosest : state.tree.closest? = some col)
    (hnear : ¬problem.epsilon < state.tree.slack.get col) :
    Balanced problem matching (state.reach col) where
  supports := h.supports
  slack_eq := fun other hother => h.slack_eq other (outside_of_outside_reach hother)
  slack_le := fun row other hrow hother =>
    h.slack_le row other hrow (outside_of_outside_reach hother)
  parent_near := fun _ hother => h.parent_near_reach hclosest hnear hother

theorem join (hclosest : state.tree.closest? = some col)
    (hnear : ¬problem.epsilon < state.tree.slack.get col) :
    Balanced problem matching ((state.reach col).enter problem row) where
  supports := h.supports
  slack_eq := fun other hother =>
    slack_eq_join (h.slack_eq other (outside_of_outside_reach hother)) hother
  slack_le := by
    intro visited other hvisited hother
    have hold := h.slack_le visited other
    have hrows := (Tree.rows_enter problem state.potentials (state.reach col).tree row
      visited).symm.trans hvisited
    split at hrows
    · next heq =>
        rcases join_cases hother with ⟨-, hslack, -⟩ | ⟨hnot, hslack, -⟩
        · rw [hslack, heq]
          exact le_refl _
        · rw [hslack, heq]
          exact not_lt.mp hnot
    · have hbound := hold hrows (outside_of_outside_reach hother)
      rcases join_cases hother with ⟨hless, hslack, -⟩ | ⟨-, hslack, -⟩
      · rw [hslack]
        exact hless.le.trans hbound
      · rw [hslack]
        exact hbound
  parent_near := by
    intro other hother
    have hreach : (state.reach col).tree.cols.get other = true := hother
    have hparent : ((state.reach col).enter problem row).tree.parent.get other =
        state.tree.parent.get other := Tree.parent_enter_of_mem hreach
    rw [hparent]
    exact h.parent_near_reach hclosest hnear hreach

end Balanced

theorem balanced_of_steps (hnonneg : 0 ≤ problem.epsilon) (hconsistent : matching.Consistent)
    (hroot : matching.colOf root = none) (hopen : state.tree.IsOpen matching root)
    (h : Balanced problem matching state) (hsteps : Steps problem matching state next) :
    Balanced problem matching next := by
  induction hsteps with
  | refl => exact h
  | tail hsteps hstep ih =>
      cases hstep with
      | tighten hclosest hfar =>
          have hopen' := isOpen_of_steps hconsistent hroot hopen hsteps
          exact ih.tighten hopen' hnonneg hroot hclosest hfar
      | join hclosest hnear => exact ih.join hclosest hnear

/-- What a search leaves behind supports the matching with the path in it. -/
theorem supports_of_run (hnonneg : 0 ≤ problem.epsilon) (hconsistent : matching.Consistent)
    (h : state.potentials.Supports problem matching)
    (hrun : run problem matching state root = (last, .ok path)) :
    last.potentials.Supports problem (matching.augment path) := by
  obtain ⟨hroot, middle, col, hsteps, harrives, htrace⟩ := exists_steps_of_run hrun
  have hopen : (state.plant problem root).tree.IsOpen matching root :=
    Tree.isOpen_plant fun col => belowCeiling_exact _
  have hopen' := isOpen_of_steps hconsistent hroot hopen hsteps
  have hmiddle := balanced_of_steps hnonneg hconsistent hroot hopen (balanced_plant h) hsteps
  have hcases : ∀ {row other}, (matching.augment path).colOf row = some other →
      last.tree.cols.get other = true ∧ row = last.tree.parent.get other ∨
        matching.colOf row = some other := fun hmatched =>
    harrives.matched_cases hconsistent hroot hopen' htrace hmatched
  obtain ⟨hclosest, hnear, -, rfl⟩ := harrives
  refine ⟨hmiddle.supports.feasible, hmiddle.supports.generated, fun row other hmatched => ?_⟩
  rcases hcases hmatched with ⟨hinside, rfl⟩ | hold
  · exact hmiddle.parent_near_reach hclosest hnear hinside
  · exact hmiddle.supports.matched_near row other hold

end Search

end Hungarian
