import Mathlib.Data.List.Forall2
import Hungarian.Proofs.Stage.Visits

/-!
# Runs in step

Two runs, of different problems or over different numbers, take the same turns as long as what they
compare is the same for both. When two numbers are the same, and when two potentials are, is left to
two relations; what they have to keep to is that cells have the same reduced costs under the same
potentials, and that moves leave the same slacks and the same potentials.
-/

namespace Hungarian

open CostArithmetic

variable {α β : Type} {size : Nat} {same : α → β → Prop}
  {sameDuals : Potentials α size → Potentials β size → Prop} {matching : Matching size}

namespace Tree

structure Mirrors (same : α → β → Prop) (tree : Tree α size) (other : Tree β size) : Prop where
  rows_eq : tree.rows = other.rows
  cols_eq : tree.cols = other.cols
  parent_eq : tree.parent = other.parent
  slack : ∀ col, same (tree.slack.get col) (other.slack.get col)
  deltas : List.Forall₂ same tree.deltas other.deltas

variable {tree : Tree α size} {other : Tree β size}

theorem traceBack_congr (h : tree.parent = other.parent) (root : Fin size) (steps : Nat)
    (col : Fin size) (path : Path size) :
    tree.traceBack matching root steps col path = other.traceBack matching root steps col path := by
  induction steps generalizing col path with
  | zero =>
      rw [traceBack, traceBack, h]
  | succ steps ih =>
      rw [traceBack, traceBack, h]
      simp only [ih]

namespace Mirrors

variable (h : tree.Mirrors same other)

include h

theorem reach (col : Fin size) : (tree.reach col).Mirrors same (other.reach col) where
  rows_eq := h.rows_eq
  cols_eq := by rw [Tree.reach, Tree.reach, h.cols_eq]
  parent_eq := h.parent_eq
  slack := h.slack
  deltas := by
    rw [deltas_reach, deltas_reach]
    exact h.deltas

theorem closest?_eq [CostArithmetic α] [CostArithmetic β]
    (hprecedes : ∀ {x y : α} {x' y' : β}, same x x' → same y y' →
      precedes x y = precedes x' y') : tree.closest? = other.closest? := by
  have hcloser : tree.closer = other.closer := by
    funext best col
    unfold closer
    rw [h.cols_eq]
    cases best with
    | none => rfl
    | some best => simp only [hprecedes (h.slack col) (h.slack best)]
  rw [closest?, closest?, hcloser]

end Mirrors

end Tree

variable [CostArithmetic α] [CostArithmetic β] {problem : Problem α size}
  {problem' : Problem β size}

/-- What makes two searches take the same turns, given the same numbers. -/
structure Problem.Alike (same : α → β → Prop)
    (sameDuals : Potentials α size → Potentials β size → Prop) (problem : Problem α size)
    (problem' : Problem β size) : Prop where
  lt_iff : ∀ {x y : α} {x' y' : β}, same x x' → same y y' → (x < y ↔ x' < y')
  precedes_eq : ∀ {x y : α} {x' y' : β}, same x x' → same y y' → precedes x y = precedes x' y'
  belowCeiling : ∀ {x : α} {x' : β}, same x x' →
    belowCeiling x = true ∧ CostArithmetic.belowCeiling x' = true
  far_iff : ∀ {x : α} {x' : β}, same x x' → (problem.epsilon < x ↔ problem'.epsilon < x')
  reducedCost : ∀ {potentials : Potentials α size} {potentials' : Potentials β size},
    sameDuals potentials potentials' → ∀ row col, same (potentials.reducedCost problem row col)
      (potentials'.reducedCost problem' row col)

namespace Search

structure State.Mirrors (same : α → β → Prop)
    (sameDuals : Potentials α size → Potentials β size → Prop) (state : State α size)
    (other : State β size) : Prop where
  tree : state.tree.Mirrors same other.tree
  potentials : sameDuals state.potentials other.potentials

/-- Moves that lead from one state of a search to another keep what the state has in common with a
state of another search. -/
def MoveAlike (same : α → β → Prop) (sameDuals : Potentials α size → Potentials β size → Prop)
    (visited : State β size → Prop) : Prop :=
  ∀ (state : State α size) (other : State β size) (col : Fin size), visited other →
    visited (other.tighten (other.tree.slack.get col)) → state.Mirrors same sameDuals other →
    other.tree.cols.get col = false →
      sameDuals (state.tighten (state.tree.slack.get col)).potentials
        (other.tighten (other.tree.slack.get col)).potentials ∧
      ∀ index, other.tree.cols.get index = false →
        same (state.tree.slack.get index - state.tree.slack.get col)
          (other.tree.slack.get index - other.tree.slack.get col)

namespace State.Mirrors

variable {state : State α size} {other : State β size} {visited : State β size → Prop}
  {row col : Fin size}

omit [CostArithmetic α] [CostArithmetic β] in
theorem reach (h : state.Mirrors same sameDuals other) (col : Fin size) :
    (state.reach col).Mirrors same sameDuals (other.reach col) where
  tree := h.tree.reach col
  potentials := h.potentials

theorem tighten (hmoves : MoveAlike same sameDuals visited) (hvisited : visited other)
    (hnext : visited (other.tighten (other.tree.slack.get col)))
    (h : state.Mirrors same sameDuals other) (hcol : other.tree.cols.get col = false) :
    (state.tighten (state.tree.slack.get col)).Mirrors same sameDuals
      (other.tighten (other.tree.slack.get col)) := by
  obtain ⟨hpotentials, hslack⟩ := hmoves state other col hvisited hnext h hcol
  refine ⟨⟨h.tree.rows_eq, h.tree.cols_eq, h.tree.parent_eq, fun index => ?_, ?_⟩, hpotentials⟩
  · change same ((state.tree.tighten _).slack.get index) ((other.tree.tighten _).slack.get index)
    rw [Tree.slack_tighten, Tree.slack_tighten, h.tree.cols_eq]
    split
    · exact h.tree.slack index
    · next hindex => exact hslack index (by simpa using hindex)
  · change List.Forall₂ same (state.tree.tighten _).deltas (other.tree.tighten _).deltas
    rw [Tree.deltas_tighten, Tree.deltas_tighten]
    exact List.rel_append h.tree.deltas (.cons (h.tree.slack col) .nil)

variable (halike : problem.Alike same sameDuals problem')

include halike

theorem plant (h : sameDuals state.potentials other.potentials) (root : Fin size) :
    (state.plant problem root).Mirrors same sameDuals (other.plant problem' root) where
  tree := by
    have hbelow := fun col => halike.belowCeiling (halike.reducedCost h root col)
    refine ⟨rfl, rfl, vector_ext fun col => ?_, fun col => ?_, .nil⟩
    · change (Tree.plant problem state.potentials state.tree root).parent.get col =
        (Tree.plant problem' other.potentials other.tree root).parent.get col
      rw [Tree.parent_plant, Tree.parent_plant, if_pos (hbelow col).1, if_pos (hbelow col).2]
    · change same ((Tree.plant problem state.potentials state.tree root).slack.get col)
        ((Tree.plant problem' other.potentials other.tree root).slack.get col)
      rw [Tree.slack_plant, Tree.slack_plant, if_pos (hbelow col).1, if_pos (hbelow col).2]
      exact halike.reducedCost h root col
  potentials := h

theorem enter (h : state.Mirrors same sameDuals other) (row : Fin size) :
    (state.enter problem row).Mirrors same sameDuals (other.enter problem' row) where
  tree := by
    have himproves : ∀ col, state.tree.improves problem state.potentials row col =
        other.tree.improves problem' other.potentials row col := by
      intro col
      unfold Tree.improves
      rw [h.tree.cols_eq]
      simp only [halike.lt_iff (halike.reducedCost h.potentials row col) (h.tree.slack col)]
    refine ⟨?_, h.tree.cols_eq, vector_ext fun col => ?_, fun col => ?_, h.tree.deltas⟩
    · exact congrArg (fun rows : Vector Bool size => rows.set row true row.isLt) h.tree.rows_eq
    · change (Tree.enter problem state.potentials state.tree row).parent.get col =
        (Tree.enter problem' other.potentials other.tree row).parent.get col
      rw [Tree.parent_enter, Tree.parent_enter, himproves, h.tree.parent_eq]
    · change same ((Tree.enter problem state.potentials state.tree row).slack.get col)
        ((Tree.enter problem' other.potentials other.tree row).slack.get col)
      rw [Tree.slack_enter, Tree.slack_enter, himproves]
      split
      · exact halike.reducedCost h.potentials row col
      · exact h.tree.slack col
  potentials := h.potentials

end State.Mirrors

section Run

variable {state : State α size} {other next last : State β size} {visited : State β size → Prop}
  {root col : Fin size} {path : Path size} (halike : problem.Alike same sameDuals problem')
  (hmoves : MoveAlike same sameDuals visited)

include halike

theorem exists_arrives_mirrors (h : state.Mirrors same sameDuals other)
    (harrives : Arrives problem' matching other col last) :
    ∃ last', Arrives problem matching state col last' ∧ last'.Mirrors same sameDuals last := by
  obtain ⟨hclosest, hnear, hfree, rfl⟩ := harrives
  rw [← h.tree.closest?_eq halike.precedes_eq] at hclosest
  rw [← halike.far_iff (h.tree.slack col)] at hnear
  exact ⟨_, ⟨hclosest, hnear, hfree, rfl⟩, h.reach col⟩

include hmoves

theorem exists_step_mirrors (h : state.Mirrors same sameDuals other) (hvisited : visited other)
    (hnext : visited next) (hstep : Step problem' matching other next) :
    ∃ next', Step problem matching state next' ∧ next'.Mirrors same sameDuals next := by
  cases hstep with
  | @tighten col hclosest hfar =>
      have hcol := Tree.outside_of_closest? hclosest
      rw [← h.tree.closest?_eq halike.precedes_eq] at hclosest
      rw [← halike.far_iff (h.tree.slack col)] at hfar
      exact ⟨_, .tighten hclosest hfar, h.tighten hmoves hvisited hnext hcol⟩
  | @join col row hclosest hnear hmatched hfresh =>
      rw [← h.tree.closest?_eq halike.precedes_eq] at hclosest
      rw [← halike.far_iff (h.tree.slack col)] at hnear
      rw [← h.tree.rows_eq] at hfresh
      exact ⟨_, .join hclosest hnear hmatched hfresh, (h.reach col).enter halike row⟩

variable (hkeeps : ∀ {state next : State β size}, visited state →
  advance problem' matching state = .grows next → visited next)

include hkeeps

theorem exists_explore_mirrors {steps : Nat} (h : state.Mirrors same sameDuals other)
    (hvisited : visited other) (hexplore : explore problem' matching steps other = (last, .ok col)) :
    ∃ last', explore problem matching steps state = (last', .ok col) ∧
      last'.Mirrors same sameDuals last := by
  induction steps generalizing state other with
  | zero => cases hexplore
  | succ steps ih =>
      rw [explore] at hexplore
      split at hexplore
      · next next hnext =>
          have hvisited' := hkeeps hvisited hnext
          obtain ⟨next', hstep, hmirrors⟩ :=
            exists_step_mirrors halike hmoves h hvisited hvisited' (step_of_advance hnext)
          rw [explore, advance_of_step hstep]
          exact ih hmirrors hvisited' hexplore
      · next harrives =>
          cases hexplore
          obtain ⟨last', harrives', hmirrors⟩ :=
            exists_arrives_mirrors halike h (arrives_of_advance harrives)
          rw [explore, advance_of_arrives harrives']
          exact ⟨last', rfl, hmirrors⟩
      · cases hexplore

theorem exists_run_mirrors (h : sameDuals state.potentials other.potentials)
    (hvisited : visited (other.plant problem' root))
    (hrun : run problem' matching other root = (last, .ok path)) :
    ∃ last', run problem matching state root = (last', .ok path) ∧
      last'.Mirrors same sameDuals last := by
  obtain ⟨hroot, col, hexplore, htrace⟩ := exists_explore_of_run hrun
  obtain ⟨last', hexplore', hmirrors⟩ := exists_explore_mirrors halike hmoves hkeeps
    (State.Mirrors.plant halike h root) hvisited hexplore
  refine ⟨last', ?_, hmirrors⟩
  rw [run, if_neg (by simp [hroot]), hexplore']
  dsimp only
  rw [Tree.traceBack_congr hmirrors.tree.parent_eq, htrace]

end Run

end Search

structure RowSearch.Mirrors (same : α → β → Prop) (search : RowSearch α size)
    (other : RowSearch β size) : Prop where
  row_eq : search.row = other.row
  path_eq : search.path = other.path
  deltas : List.Forall₂ same search.deltas other.deltas

namespace Stage

variable {stage : Stage α size} {other next last : Stage β size} {row : Fin size}
  {rows : List (Fin size)} {count : Nat}

structure Mirrors (same : α → β → Prop)
    (sameDuals : Potentials α size → Potentials β size → Prop) (stage : Stage α size)
    (other : Stage β size) : Prop where
  matching_eq : stage.matching = other.matching
  potentials : sameDuals stage.state.potentials other.state.potentials
  searches : List.Forall₂ (RowSearch.Mirrors same) stage.searches other.searches

/-- What makes the run of a problem take the same turns as that of another one. -/
structure Simulates (same : α → β → Prop)
    (sameDuals : Potentials α size → Potentials β size → Prop) (problem : Problem α size)
    (problem' : Problem β size) : Prop where
  alike : problem.Alike same sameDuals problem'
  initial : sameDuals (.initial problem) (.initial problem')
  moves : ∀ matching root, Search.MoveAlike same sameDuals (Visits problem' matching (some root))

namespace Simulates

variable (h : Simulates same sameDuals problem problem')

include h

theorem exists_matchRow_mirrors (hreached : Reached problem' row other)
    (hmirrors : stage.Mirrors same sameDuals other)
    (hmatch : other.matchRow problem' row = (next, .ok ())) :
    ∃ next', stage.matchRow problem row = (next', .ok ()) ∧ next'.Mirrors same sameDuals next := by
  obtain ⟨last, path, hrun, hcount, rfl⟩ := matchRow_eq_ok_iff.mp hmatch
  have hmoves : Search.MoveAlike same sameDuals (Search.Passes problem' other.matching
      (other.state.plant problem' row)) := fun state passed col hpassed hnext =>
    h.moves other.matching row state passed col (.search hreached hpassed) (.search hreached hnext)
  obtain ⟨last', hrun', hlast⟩ := Search.exists_run_mirrors h.alike hmoves
    (fun hpassed hadvance => hpassed.grow hadvance) hmirrors.potentials .start hrun
  rw [← hmirrors.matching_eq] at hrun' hcount
  refine ⟨_, matchRow_eq_ok_iff.mpr ⟨last', path, hrun', hcount, rfl⟩, ?_, hlast.potentials, ?_⟩
  · exact congrArg (Matching.augment · path) hmirrors.matching_eq
  · exact List.rel_append hmirrors.searches (.cons ⟨rfl, rfl, hlast.tree.deltas⟩ .nil)

theorem exists_matchRows_mirrors (hreached : Reached problem' count other)
    (hrows : rows = (List.finRange size).drop count) (hmirrors : stage.Mirrors same sameDuals other)
    (hmatch : other.matchRows problem' rows = (last, .ok ())) :
    ∃ last', stage.matchRows problem rows = (last', .ok ()) ∧
      last'.Mirrors same sameDuals last := by
  induction rows generalizing stage other count with
  | nil =>
      cases hmatch
      exact ⟨stage, rfl, hmirrors⟩
  | cons row rest ih =>
      rcases drop_finRange_cases size count with ⟨-, hdrop⟩ | ⟨next, hcount, hdrop⟩
      · rw [hdrop] at hrows
        exact absurd hrows (List.cons_ne_nil _ _)
      · rw [hdrop] at hrows
        obtain ⟨rfl, hrest⟩ := List.cons_eq_cons.mp hrows
        subst hcount
        rw [matchRows] at hmatch
        split at hmatch
        · next next hrow =>
            obtain ⟨next', hrow', hnext⟩ := h.exists_matchRow_mirrors hreached hmirrors hrow
            rw [matchRows, hrow']
            exact ih (hreached.matchRow hrow) hrest hnext hmatch
        · cases hmatch

theorem exists_final_mirrors (hfinal : final problem' = (last, .ok ())) :
    ∃ last', final problem = (last', .ok ()) ∧ last'.Mirrors same sameDuals last :=
  h.exists_matchRows_mirrors .initial List.drop_zero.symm ⟨rfl, h.initial, .nil⟩ hfinal

end Simulates

end Stage

end Hungarian
