import Mathlib.Data.Fintype.Card
import Hungarian.Proofs.Search.Steps

/-!
# How every search ends

Nothing is assumed of the matching here: it may name a column for a row and another row for that
column. Still each column that joins a tree brings in a row of its own, so that a column is left
outside for as long as the search goes on, and between two moves of the potentials a column joins, if
moves bring columns near. So a search ends within a bound that depends on the size alone.
-/

namespace Hungarian

variable {α : Type} {size : Nat} {matching : Matching size} {root col row : Fin size}

namespace Tree

/-- The marks of the columns agree with the moves, and no column has joined twice. -/
structure IsLogged (tree : Tree α size) : Prop where
  col_mem_iff : ∀ col, tree.cols.get col = true ↔ col ∈ tree.reached
  reached_nodup : tree.reached.Nodup

def rowCount (tree : Tree α size) : Nat :=
  (Finset.univ.filter fun row => tree.rows.get row = true).card

/-- Besides the root there is a row for each column. -/
structure IsTallied (tree : Tree α size) : Prop extends IsLogged tree where
  rowCount_eq : tree.rowCount = tree.reached.length + 1

variable {tree : Tree α size}

namespace IsLogged

variable (h : tree.IsLogged)

include h

theorem notMem_reached (hcol : tree.cols.get col = false) : col ∉ tree.reached := by
  rw [← h.col_mem_iff, hcol]
  simp

theorem reach (hcol : tree.cols.get col = false) : (tree.reach col).IsLogged where
  col_mem_iff := by
    intro other
    rw [cols_reach, reached_reach, List.mem_append, List.mem_singleton, ← h.col_mem_iff]
    by_cases heq : other = col
    · simp [heq]
    · simp [heq]
  reached_nodup := by
    rw [reached_reach, ← List.concat_eq_append, List.nodup_concat]
    exact ⟨h.notMem_reached hcol, h.reached_nodup⟩

theorem tighten (delta : α) [CostArithmetic α] : (tree.tighten delta).IsLogged where
  col_mem_iff := by
    rw [reached_tighten]
    exact h.col_mem_iff
  reached_nodup := by
    rw [reached_tighten]
    exact h.reached_nodup

theorem length_reached_le : tree.reached.length ≤ size := by
  simpa using h.reached_nodup.length_le_card

theorem length_reached_lt (hcol : tree.cols.get col = false) : tree.reached.length < size := by
  have hlength := (h.reach hcol).length_reached_le
  rw [reached_reach, List.length_append, List.length_singleton] at hlength
  omega

end IsLogged

theorem rowCount_le (tree : Tree α size) : tree.rowCount ≤ size := by
  have hle := Finset.card_le_univ (Finset.univ.filter fun row => tree.rows.get row = true)
  rwa [Fintype.card_fin] at hle

/-- All columns would bring in all rows and the root once more. -/
theorem IsTallied.exists_outside (h : tree.IsTallied) : ∃ col, tree.cols.get col = false := by
  by_contra hnone
  have hinside : ∀ col, col ∈ tree.reached := by
    intro col
    rw [← h.col_mem_iff]
    by_contra hcol
    exact hnone ⟨col, by simpa using hcol⟩
  have hall : (List.finRange size).length ≤ tree.reached.length :=
    (List.nodup_finRange size).length_le_of_subset fun col _ => hinside col
  have hrows := tree.rowCount_le
  rw [h.rowCount_eq] at hrows
  rw [List.length_finRange] at hall
  omega

variable [CostArithmetic α] {problem : Problem α size} {potentials : Potentials α size}

theorem isTallied_plant (problem : Problem α size) (potentials : Potentials α size)
    (tree : Tree α size) (root : Fin size) : (plant problem potentials tree root).IsTallied where
  col_mem_iff := by
    intro col
    rw [cols_plant]
    simp [reached, plant]
  reached_nodup := List.nodup_nil
  rowCount_eq := by
    have hrows : (Finset.univ.filter fun row =>
        (plant problem potentials tree root).rows.get row = true) = {root} := by
      ext row
      simp [rows_plant]
    rw [rowCount, hrows, Finset.card_singleton]
    rfl

theorem IsTallied.tighten (h : tree.IsTallied) (delta : α) : (tree.tighten delta).IsTallied where
  toIsLogged := h.toIsLogged.tighten delta
  rowCount_eq := by
    rw [reached_tighten]
    exact h.rowCount_eq

theorem rowCount_enter (hfresh : tree.rows.get row = false) :
    (tree.enter problem potentials row).rowCount = tree.rowCount + 1 := by
  have hrows : (Finset.univ.filter fun other =>
      (tree.enter problem potentials row).rows.get other = true) =
      insert row (Finset.univ.filter fun other => tree.rows.get other = true) := by
    ext other
    rw [Finset.mem_filter, rows_enter, Finset.mem_insert, Finset.mem_filter]
    by_cases heq : other = row
    · simp [heq]
    · simp [heq]
  rw [rowCount, hrows, Finset.card_insert_of_notMem (by simp [hfresh]), rowCount]

theorem IsTallied.join (h : tree.IsTallied) (hcol : tree.cols.get col = false)
    (hfresh : tree.rows.get row = false) :
    ((tree.reach col).enter problem potentials row).IsTallied where
  col_mem_iff := (h.toIsLogged.reach hcol).col_mem_iff
  reached_nodup := (h.toIsLogged.reach hcol).reached_nodup
  rowCount_eq := by
    have hreached : ((tree.reach col).enter problem potentials row).reached =
        tree.reached ++ [col] := tree.reached_reach col
    have hrows : ((tree.reach col).enter problem potentials row).rowCount =
        (tree.reach col).rowCount + 1 := rowCount_enter hfresh
    have hcount : (tree.reach col).rowCount = tree.rowCount := rfl
    rw [hrows, hcount, h.rowCount_eq, hreached, List.length_append, List.length_singleton]

end Tree

namespace Search

variable [CostArithmetic α] {problem : Problem α size} {state next middle last : State α size}
  {error : SearchError} {answer : State α size × Except SearchError (Fin size)}

theorem isTallied_of_step (htallied : state.tree.IsTallied)
    (h : Step problem matching state next) : next.tree.IsTallied := by
  cases h with
  | tighten => exact htallied.tighten _
  | join hclosest _ _ hfresh => exact htallied.join (Tree.outside_of_closest? hclosest) hfresh

theorem isTallied_of_steps (htallied : state.tree.IsTallied)
    (h : Steps problem matching state next) : next.tree.IsTallied := by
  induction h with
  | refl => exact htallied
  | tail _ hstep ih => exact isTallied_of_step ih hstep

def IsNear (problem : Problem α size) (tree : Tree α size) : Prop :=
  ∃ col, tree.closest? = some col ∧ ¬problem.epsilon < tree.slack.get col

/-- A move of the potentials by the least slack brings a column near. -/
def Progresses (problem : Problem α size) : Prop :=
  ∀ (tree : Tree α size) (col : Fin size), tree.closest? = some col →
    problem.epsilon < tree.slack.get col → IsNear problem (tree.tighten (tree.slack.get col))

theorem not_isNear_of_lt {tree : Tree α size} (hclosest : tree.closest? = some col)
    (hfar : problem.epsilon < tree.slack.get col) : ¬IsNear problem tree := by
  rintro ⟨other, hother, hnear⟩
  obtain rfl := Option.some.inj (hclosest.symm.trans hother)
  exact hnear hfar

open Classical in
/-- The steps that a search has left: two for each column outside, one of them taken already when a
column is near. -/
noncomputable def stepsLeft (problem : Problem α size) (tree : Tree α size) : Nat :=
  2 * (size - tree.reached.length) - if IsNear problem tree then 1 else 0

/-- A search has one step less to go after each, as long as moves of the potentials progress. -/
theorem stepsLeft_lt_of_step (hprogress : Progresses problem)
    (hlogged : state.tree.IsLogged) (h : Step problem matching state next) :
    stepsLeft problem next.tree < stepsLeft problem state.tree := by
  cases h with
  | @tighten col hclosest hfar =>
      have hless := hlogged.length_reached_lt (Tree.outside_of_closest? hclosest)
      have hnear : IsNear problem (state.tree.tighten (state.tree.slack.get col)) :=
        hprogress state.tree col hclosest hfar
      -- the columns outside stay, and one of them is near now
      rw [stepsLeft, stepsLeft, State.tighten, if_pos hnear,
        if_neg (not_isNear_of_lt hclosest hfar), Tree.reached_tighten]
      omega
  | @join col row hclosest hnear hmatched hfresh =>
      have hless := hlogged.length_reached_lt (Tree.outside_of_closest? hclosest)
      have hreached : ((state.reach col).enter problem row).tree.reached =
          state.tree.reached ++ [col] := state.tree.reached_reach col
      have hnow : IsNear problem state.tree := ⟨col, hclosest, hnear⟩
      -- a column fewer counts for two, which covers that the next one may be far
      rw [stepsLeft, stepsLeft, if_pos hnow, hreached, List.length_append, List.length_singleton]
      omega

/-- Between two moves of the potentials a column joins the tree. -/
theorem length_deltas_le_of_steps (hprogress : Progresses problem)
    (h : Steps problem matching (state.plant problem root) next) :
    next.tree.deltas.length ≤ next.tree.reached.length + 1 ∧
      (¬IsNear problem next.tree → next.tree.deltas.length ≤ next.tree.reached.length) := by
  induction h with
  | refl => exact ⟨Nat.zero_le _, fun _ => Nat.le_refl 0⟩
  | @tail middle next _ hstep ih =>
      cases hstep with
      | @tighten col hclosest hfar =>
          -- no column was near, so that the second part of the hypothesis applies
          have hle := ih.2 (not_isNear_of_lt hclosest hfar)
          rw [State.tighten, Tree.deltas_tighten, Tree.reached_tighten, List.length_append,
            List.length_singleton]
          exact ⟨Nat.succ_le_succ hle, fun hfar' =>
            absurd (hprogress middle.tree col hclosest hfar) hfar'⟩
      | @join col row =>
          have hdeltas : ((middle.reach col).enter problem row).tree.deltas =
              middle.tree.deltas := middle.tree.deltas_reach col
          have hreached : ((middle.reach col).enter problem row).tree.reached =
              middle.tree.reached ++ [col] := middle.tree.reached_reach col
          rw [hdeltas, hreached, List.length_append, List.length_singleton]
          exact ⟨ih.1.trans (Nat.le_succ _), fun _ => ih.1⟩

/-- A step that is noted as a move of the potentials is one, by the least slack. -/
theorem exists_eq_tighten_of_advance (hadvance : advance problem matching state = .grows next)
    {delta : α} (hmoves : next.tree.moves = state.tree.moves ++ [.tighten delta]) :
    ∃ col, state.tree.closest? = some col ∧ problem.epsilon < state.tree.slack.get col ∧
      delta = state.tree.slack.get col ∧ next = state.tighten delta := by
  cases step_of_advance hadvance with
  | @tighten col hclosest hfar =>
      have htightened : (state.tighten (state.tree.slack.get col)).tree.moves =
          state.tree.moves ++ [.tighten (state.tree.slack.get col)] := rfl
      rw [htightened, List.append_cancel_left_eq, List.cons.injEq, Move.tighten.injEq] at hmoves
      obtain ⟨rfl, -⟩ := hmoves
      exact ⟨col, hclosest, hfar, rfl, rfl⟩
  | @join col row =>
      have hjoined : ((state.reach col).enter problem row).tree.moves =
          state.tree.moves ++ [.reach col] := rfl
      rw [hjoined, List.append_cancel_left_eq, List.cons.injEq] at hmoves
      exact nomatch hmoves.1

/-- The step after a move of the potentials takes in a column. -/
theorem exists_advance_eq_join (hprogress : Progresses problem)
    (hadvance : advance problem matching state = .grows next) {delta : α}
    (hmoves : next.tree.moves = state.tree.moves ++ [.tighten delta]) :
    ∃ col, next.tree.cols.get col = false ∧
      advance problem matching next = next.join problem matching col := by
  obtain ⟨col, hclosest, hfar, rfl, rfl⟩ := exists_eq_tighten_of_advance hadvance hmoves
  obtain ⟨other, hother, hnear⟩ := hprogress state.tree col hclosest hfar
  exact ⟨other, Tree.outside_of_closest? hother, advance_eq_join hother hnear⟩

/-- A search ends after at most two steps for each column and one more. -/
theorem exists_ends_plant (hprogress : Progresses problem) (matching : Matching size)
    (state : State α size) (root : Fin size) :
    ∃ middle answer, Steps problem matching (state.plant problem root) middle ∧
      Ends problem matching middle answer ∧ ∀ steps, 2 * size + 1 ≤ steps →
        explore problem matching steps (state.plant problem root) = answer := by
  have hbound : stepsLeft problem (state.plant problem root).tree < 2 * size + 1 := by
    unfold stepsLeft
    omega
  have hplant : (state.plant problem root).tree.IsTallied := Tree.isTallied_plant _ _ _ _
  obtain ⟨middle, answer, hsteps, hends, hexplore⟩ :=
    exists_ends (fun state => state.tree.IsTallied) (fun state => stepsLeft problem state.tree)
      (fun state next htallied hstep => ⟨isTallied_of_step htallied hstep,
        stepsLeft_lt_of_step hprogress htallied.toIsLogged hstep⟩) hplant
  exact ⟨middle, answer, hsteps, hends, fun steps hle => hexplore steps (hbound.trans_le hle)⟩

section Ends

variable (hsteps : Steps problem matching (state.plant problem root) middle)
  (hends : Ends problem matching middle answer)

include hsteps

theorem isTallied_of_steps_plant : middle.tree.IsTallied :=
  isTallied_of_steps (Tree.isTallied_plant _ _ _ _) hsteps

include hends

theorem ne_noColumnLeft_of_ends : answer.2 ≠ .error .noColumnLeft := by
  intro hanswer
  cases hends with
  | arrives => cases hanswer
  | breaks hbreaks =>
      cases hanswer
      cases hbreaks with
      | noColumnLeft hclosest =>
          obtain ⟨col, hcol⟩ := (isTallied_of_steps_plant hsteps).exists_outside
          rw [Tree.inside_of_closest?_eq_none hclosest col] at hcol
          exact absurd hcol (by simp)

/-- The last step of a search takes in a column. -/
theorem exists_reach_of_ends :
    ∃ col, middle.tree.closest? = some col ∧ answer.1 = middle.reach col := by
  have hne := ne_noColumnLeft_of_ends hsteps hends
  cases hends with
  | arrives harrives => exact ⟨_, harrives.closest, harrives.last_eq⟩
  | breaks hbreaks =>
      cases hbreaks with
      | noColumnLeft => exact absurd rfl hne
      | rowReachedTwice hclosest => exact ⟨_, hclosest, rfl⟩

/-- A search moves the potentials at most once for each column that it takes in. -/
theorem tightenings_le_of_ends (hprogress : Progresses problem) :
    answer.1.tree.tightenings ≤ middle.tree.rowCount := by
  obtain ⟨col, -, hlast⟩ := exists_reach_of_ends hsteps hends
  have hdeltas := (length_deltas_le_of_steps hprogress hsteps).1
  have hkept : answer.1.tree.deltas = middle.tree.deltas := by
    rw [hlast]
    exact middle.tree.deltas_reach col
  rwa [Tree.tightenings, hkept, (isTallied_of_steps_plant hsteps).rowCount_eq]

end Ends

theorem Ends.ne_stalled (h : Ends problem matching state answer) : answer.2 ≠ .error .stalled := by
  intro hanswer
  cases h with
  | arrives => cases hanswer
  | breaks hbreaks =>
      cases hanswer
      cases hbreaks

/-- However many steps a search is allowed, it never runs out of columns. -/
theorem explore_ne_noColumnLeft (problem : Problem α size) (matching : Matching size)
    (state : State α size) (root : Fin size) (steps : Nat) :
    (explore problem matching steps (state.plant problem root)).2 ≠ .error .noColumnLeft := by
  rcases explore_cases problem matching steps (state.plant problem root) with
    ⟨middle, hsteps, hends⟩ | hstalled
  · exact ne_noColumnLeft_of_ends hsteps hends
  · rw [hstalled]
    exact nofun

section Run

variable (hroot : matching.colOf root = none)

include hroot

theorem fst_run (problem : Problem α size) (state : State α size) :
    (run problem matching state root).1 =
      (explore problem matching (2 * size + 1) (state.plant problem root)).1 := by
  rcases hexplore : explore problem matching (2 * size + 1) (state.plant problem root) with
    ⟨last, error | col⟩
  · rw [run_of_broken hroot hexplore]
  · rw [run_of_arrived hroot hexplore]

/-- A search breaks off in its tree or on the way back. -/
theorem error_of_run (h : (run problem matching state root).2 = .error error) :
    (explore problem matching (2 * size + 1) (state.plant problem root)).2 = .error error ∨
      error = .cyclicPath ∨ error = .unmatchedTreeRow := by
  rcases hexplore : explore problem matching (2 * size + 1) (state.plant problem root) with
    ⟨last, found | col⟩
  · rw [run_of_broken hroot hexplore] at h
    obtain rfl := Except.error.inj h
    exact .inl rfl
  · rw [run_of_arrived hroot hexplore] at h
    exact .inr ((Tree.error_of_traceBack h).imp_right And.left)

end Run

/-- A tree of all columns would have one row too many. -/
theorem run_ne_noColumnLeft (problem : Problem α size) (matching : Matching size)
    (state : State α size) (root : Fin size) :
    (run problem matching state root).2 ≠ .error .noColumnLeft := by
  intro h
  cases hroot : matching.colOf root with
  | some col =>
      rw [run, hroot] at h
      cases h
  | none =>
      rcases error_of_run hroot h with hexplore | hcyclic | hunmatched
      · exact explore_ne_noColumnLeft problem matching state root _ hexplore
      · cases hcyclic
      · cases hunmatched

/-- A search that ends on its own, the same way however many steps it is allowed, and moves the
potentials at most once for each column, which the next step takes in. -/
structure EndsInTime (problem : Problem α size) (matching : Matching size) (state : State α size)
    (root : Fin size) : Prop where
  exists_answer : ∃ answer, answer.2 ≠ .error .stalled ∧ ∀ steps, 2 * size + 1 ≤ steps →
    explore problem matching steps (state.plant problem root) = answer
  run_ne_stalled : (run problem matching state root).2 ≠ .error .stalled
  joins_after_tighten : ∀ middle next delta, Passes problem matching (state.plant problem root) middle →
    advance problem matching middle = .grows next →
    next.tree.moves = middle.tree.moves ++ [.tighten delta] →
      ∃ col, next.tree.cols.get col = false ∧
        advance problem matching next = next.join problem matching col
  tightenings_le : (run problem matching state root).1.tree.tightenings ≤ size

theorem endsInTime (hprogress : Progresses problem) (state : State α size)
    (hroot : matching.colOf root = none) : EndsInTime problem matching state root := by
  obtain ⟨middle, answer, hsteps, hends, hexplore⟩ :=
    exists_ends_plant hprogress matching state root
  have hanswer := hexplore _ le_rfl
  refine ⟨⟨answer, hends.ne_stalled, hexplore⟩, fun hstalled => ?_, ?_, ?_⟩
  · rcases error_of_run hroot hstalled with hexplored | hcyclic | hunmatched
    · rw [hanswer] at hexplored
      exact hends.ne_stalled hexplored
    · cases hcyclic
    · cases hunmatched
  · intro middle next delta _ hadvance hmoves
    exact exists_advance_eq_join hprogress hadvance hmoves
  · rw [fst_run hroot, hanswer]
    exact (tightenings_le_of_ends hsteps hends hprogress).trans middle.tree.rowCount_le

end Search

end Hungarian
