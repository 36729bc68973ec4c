import Hungarian.Proofs.Stage.Range

/-!
# The course of a run

The states of a run follow one another: a tree is planted where the last search left off, and then the
search takes one step after another. Over exact numbers each of these steps leaves the potentials as
they are or raises some rows and lowers some columns, so that this is also all that happens to them
between any two states of the run.
-/

namespace Hungarian

variable {α : Type} {size : Nat}

/-- Only moves by more than the tolerance are made. -/
theorem Search.driftsTo_of_step {problem : Problem ℚ size} {matching : Matching size}
    {state next : State ℚ size} (hnonneg : 0 ≤ problem.epsilon)
    (h : Step problem matching state next) : state.potentials.DriftsTo next.potentials := by
  cases h with
  | tighten _ hfar => exact Potentials.driftsTo_tighten _ (hnonneg.trans hfar.le) _ _
  | join => exact .refl _

namespace Stage

section Course

variable [CostArithmetic α] {problem : Problem α size} {matching : Matching size}
  {root? : Option (Fin size)} {stage : Stage α size} {state : Search.State α size} {row : Fin size}
  {count : Nat}

/-- What leads from one state of a run to the next: a tree is planted, or the search from a row takes
one step. -/
inductive Advances (problem : Problem α size) : Search.State α size → Search.State α size → Prop
  | plant {stage : Stage α size} {row : Fin size} (hstage : Reached problem row stage) :
      Advances problem stage.state (stage.state.plant problem row)
  | grow {stage : Stage α size} {row : Fin size} {state next : Search.State α size}
      (hstage : Reached problem row stage)
      (hpasses : Search.Passes problem stage.matching (stage.state.plant problem row) state)
      (hadvance : Search.advance problem stage.matching state = .grows next) :
      Advances problem state next
  | arrive {stage : Stage α size} {row col : Fin size} {state last : Search.State α size}
      (hstage : Reached problem row stage)
      (hpasses : Search.Passes problem stage.matching (stage.state.plant problem row) state)
      (hadvance : Search.advance problem stage.matching state = .arrives col last) :
      Advances problem state last

def LeadsTo (problem : Problem α size) : Search.State α size → Search.State α size → Prop :=
  Relation.ReflTransGen (Advances problem)

theorem Reached.leadsTo_of_passes (h : Reached problem row stage)
    (hpasses : Search.Passes problem stage.matching (stage.state.plant problem row) state) :
    LeadsTo problem stage.state state := by
  induction hpasses with
  | start => exact .single (.plant h)
  | grow hstate hadvance ih => exact ih.tail (.grow h hstate hadvance)

theorem Reached.leadsTo (h : Reached problem count stage) :
    LeadsTo problem (Stage.initial problem).state stage.state := by
  induction h with
  | initial => exact .refl
  | matchRow hstage hmatch ih =>
      obtain ⟨last, path, hrun, -, rfl⟩ := matchRow_eq_ok_iff.mp hmatch
      obtain ⟨-, col, hexplore, -⟩ := Search.exists_explore_of_run hrun
      obtain ⟨middle, hpasses, hadvance⟩ := Search.exists_passes_of_explore hexplore
      exact (ih.trans (hstage.leadsTo_of_passes hpasses)).tail (.arrive hstage hpasses hadvance)

theorem leadsTo_of_visits (h : Visits problem matching root? state) :
    LeadsTo problem (initial problem).state state := by
  cases h with
  | stage hstage => exact hstage.leadsTo
  | search hstage hpasses => exact hstage.leadsTo.trans (hstage.leadsTo_of_passes hpasses)
  | arrival hstage hpasses hadvance =>
      have hpassed := hstage.leadsTo.trans (hstage.leadsTo_of_passes hpasses)
      exact hpassed.tail (.arrive hstage hpasses hadvance)

end Course

variable {problem : Problem ℚ size} {matching : Matching size} {root? : Option (Fin size)}
  {state next : Search.State ℚ size} {low high : ℚ}

theorem Advances.driftsTo (hnonneg : 0 ≤ problem.epsilon) (h : Advances problem state next) :
    state.potentials.DriftsTo next.potentials := by
  cases h with
  | plant => exact .refl _
  | grow _ _ hadvance => exact Search.driftsTo_of_step hnonneg (Search.step_of_advance hadvance)
  | arrive _ _ hadvance =>
      -- the last column only joins the tree
      rw [(Search.arrives_of_advance hadvance).last_eq]
      exact .refl _

theorem LeadsTo.driftsTo (hnonneg : 0 ≤ problem.epsilon) (h : LeadsTo problem state next) :
    state.potentials.DriftsTo next.potentials := by
  induction h with
  | refl => exact .refl _
  | tail _ hnext ih => exact ih.trans (hnext.driftsTo hnonneg)

/-- The column that a search ends at is still free, so that it keeps its potential as well. -/
theorem departs_of_visits (hnonneg : 0 ≤ problem.epsilon)
    (h : Visits problem matching root? state) : state.potentials.Departs problem matching := by
  cases h with
  | stage hstage => exact hstage.departs hnonneg
  | search hstage hpasses =>
      exact hstage.departs_of_steps hnonneg (hstage.departs hnonneg) hpasses.steps
  | arrival hstage hpasses hadvance =>
      have hpassed := hstage.departs_of_steps hnonneg (hstage.departs hnonneg) hpasses.steps
      rw [(Search.arrives_of_advance hadvance).last_eq]
      exact hpassed

/-- **The range of the potentials.** In every state of a run the potentials of the rows lie between
the least and the greatest cost, and those of the columns between their differences, up to the
tolerance; a free column has the potential that it had in the beginning; and from the first state to
this one and to all later ones rows only rise and columns only fall. -/
theorem potentials_bounds_of_visits (hnonneg : 0 ≤ problem.epsilon)
    (hlow : IsLeast (Set.range fun cell : Fin size × Fin size => problem.cost cell.1 cell.2) low)
    (hhigh : IsGreatest (Set.range fun cell : Fin size × Fin size =>
      problem.cost cell.1 cell.2) high)
    (h : Visits problem matching root? state) :
    (∀ row, state.potentials.rows.get row ∈ Set.Icc low high) ∧
    (∀ col, state.potentials.cols.get col ∈
      Set.Icc (low - high - problem.epsilon) (high - low)) ∧
    (∀ col, matching.rowOf col = none → IsLeast (Set.range fun row =>
      problem.cost row col - (Potentials.initial problem).rows.get row)
        (state.potentials.cols.get col)) ∧
    LeadsTo problem (initial problem).state state ∧
    ∀ later, LeadsTo problem state later →
      (∀ row, state.potentials.rows.get row ≤ later.potentials.rows.get row) ∧
      ∀ col, later.potentials.cols.get col ≤ state.potentials.cols.get col := by
  have hcosts : problem.CostsWithin low high := fun row col =>
    ⟨hlow.2 ⟨(row, col), rfl⟩, hhigh.2 ⟨(row, col), rfl⟩⟩
  have hrange := inRange_of_visits hnonneg hcosts h
  refine ⟨hrange.rows_mem, hrange.cols_mem, ?_, leadsTo_of_visits h, ?_⟩
  · intro col hfree
    rw [(departs_of_visits hnonneg h).free_eq col hfree]
    exact Potentials.isLeast_initial_cols problem col
  · intro later hlater
    have hdrifts := hlater.driftsTo hnonneg
    exact ⟨hdrifts.rows_le, hdrifts.cols_ge⟩

def closeProblem : Problem ℚ 3 :=
  { productProblem with epsilon := 1 / 2 }

/-- At the end of the last search two rows have risen and one column has fallen below zero; the last
column is free. -/
theorem potentials_bounds_closeProblem : 0 ≤ closeProblem.epsilon ∧
    IsLeast (Set.range fun cell : Fin 3 × Fin 3 => closeProblem.cost cell.1 cell.2) 1 ∧
    IsGreatest (Set.range fun cell : Fin 3 × Fin 3 => closeProblem.cost cell.1 cell.2) 9 ∧
    (Potentials.initial closeProblem).rows.toList = [1, 2, 3] ∧
    (Potentials.initial closeProblem).cols.toList = [0, 1, 2] ∧
    ∃ matching state, Visits closeProblem matching (some 2) state ∧
      matching.rowOf 2 = none ∧
      state.potentials.rows.toList = [1, 3, 4] ∧ state.potentials.cols.toList = [-1, 1, 2] ∧
      (∀ row, state.potentials.rows.get row ∈ Set.Icc 1 9) ∧
      (∀ col, state.potentials.cols.get col ∈
        Set.Icc (1 - 9 - closeProblem.epsilon) (9 - 1)) ∧
      (∀ col, matching.rowOf col = none → IsLeast (Set.range fun row =>
        closeProblem.cost row col - (Potentials.initial closeProblem).rows.get row)
          (state.potentials.cols.get col)) ∧
      LeadsTo closeProblem (initial closeProblem).state state ∧
      ∀ later, LeadsTo closeProblem state later →
        (∀ row, state.potentials.rows.get row ≤ later.potentials.rows.get row) ∧
        ∀ col, later.potentials.cols.get col ≤ state.potentials.cols.get col := by
  have hnonneg : 0 ≤ closeProblem.epsilon := by decide +kernel
  have hlow : IsLeast (Set.range fun cell : Fin 3 × Fin 3 =>
      closeProblem.cost cell.1 cell.2) 1 := by
    refine ⟨⟨(0, 0), by decide +kernel⟩, ?_⟩
    rintro _ ⟨cell, rfl⟩
    revert cell
    decide +kernel
  have hhigh : IsGreatest (Set.range fun cell : Fin 3 × Fin 3 =>
      closeProblem.cost cell.1 cell.2) 9 := by
    refine ⟨⟨(2, 2), by decide +kernel⟩, ?_⟩
    rintro _ ⟨cell, rfl⟩
    revert cell
    decide +kernel
  let first := ((initial closeProblem).matchRow closeProblem 0).1
  let second := (first.matchRow closeProblem 1).1
  have hfirst : (initial closeProblem).matchRow closeProblem 0 = (first, .ok ()) :=
    Prod.ext rfl (by decide +kernel)
  have hsecond : first.matchRow closeProblem 1 = (second, .ok ()) :=
    Prod.ext rfl (by decide +kernel)
  have hthird : second.matchRow closeProblem 2 =
      ((second.matchRow closeProblem 2).1, .ok ()) := Prod.ext rfl (by decide +kernel)
  have hinitial : Reached closeProblem (0 : Fin 3) (initial closeProblem) := .initial
  have hone : Reached closeProblem (1 : Fin 3) first := hinitial.matchRow hfirst
  have htwo : Reached closeProblem (2 : Fin 3) second := hone.matchRow hsecond
  have hvisits := htwo.visits_of_matchRow hthird
  refine ⟨hnonneg, hlow, hhigh, ?_, ?_, _, _, hvisits, ?_, ?_, ?_,
    potentials_bounds_of_visits hnonneg hlow hhigh hvisits⟩
  · decide +kernel
  · decide +kernel
  · decide +kernel
  · decide +kernel
  · decide +kernel

end Stage

end Hungarian
