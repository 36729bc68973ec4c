import Mathlib.Logic.Relation
import Hungarian.Proofs.Search.Trace
import Hungarian.Search.Run

/-!
# The steps of a search

`Search.advance` is one step of a search and `Search.explore` runs as many of them as it is allowed.
Here a step is a relation with one rule for each thing that a search can do, so that an invariant is
kept by a search when both rules keep it, and a search succeeds when no step can fail and some
measure falls.
-/

namespace Hungarian

variable {α : Type} {size : Nat} [CostArithmetic α]

namespace Tree

variable {tree : Tree α size} {col : Fin size}

theorem isSome_closer {best : Option (Fin size)} (h : best.isSome ∨ tree.cols.get col = false) :
    (tree.closer best col).isSome := by
  unfold closer
  split
  · next hcol =>
      exact h.resolve_right (by simp [hcol])
  · split
    · rfl
    · split <;> rfl

theorem isSome_foldl_closer {best : Option (Fin size)} {cols : List (Fin size)}
    (h : best.isSome ∨ ∃ col ∈ cols, tree.cols.get col = false) :
    (cols.foldl tree.closer best).isSome := by
  induction cols generalizing best with
  | nil => exact h.resolve_right (by simp)
  | cons first rest ih =>
      rw [List.foldl_cons]
      rcases h with hbest | ⟨col, hmem, hcol⟩
      · exact ih (.inl (isSome_closer (.inl hbest)))
      · rcases List.mem_cons.mp hmem with rfl | hrest
        · exact ih (.inl (isSome_closer (.inr hcol)))
        · exact ih (.inr ⟨col, hrest, hcol⟩)

theorem foldl_closer_eq_some {best : Option (Fin size)} {cols : List (Fin size)}
    (h : cols.foldl tree.closer best = some col) :
    best = some col ∨ tree.cols.get col = false := by
  induction cols generalizing best with
  | nil => exact .inl h
  | cons first rest ih =>
      rw [List.foldl_cons] at h
      rcases ih h with hcloser | hcol
      · unfold closer at hcloser
        split at hcloser
        · exact .inl hcloser
        · next hfirst =>
            split at hcloser
            · obtain rfl := Option.some.inj hcloser
              exact .inr (by simpa using hfirst)
            · split at hcloser
              · obtain rfl := Option.some.inj hcloser
                exact .inr (by simpa using hfirst)
              · exact .inl hcloser
      · exact .inr hcol

theorem outside_of_closest? (h : tree.closest? = some col) : tree.cols.get col = false :=
  (foldl_closer_eq_some h).resolve_left (by simp)

theorem inside_of_closest?_eq_none (h : tree.closest? = none) (col : Fin size) :
    tree.cols.get col = true := by
  by_contra hcol
  have hsome : tree.closest?.isSome :=
    isSome_foldl_closer (.inr ⟨col, List.mem_finRange col, by simpa using hcol⟩)
  rw [h] at hsome
  exact absurd hsome (by simp)

section Key

variable {β : Type} [LinearOrder β] (key : α → β)
  (hkey : ∀ first second : α,
    CostArithmetic.precedes first second = decide (key first < key second))

include hkey

theorem key_le_of_closer {best : Option (Fin size)} {first : Fin size}
    (h : tree.closer best first = some col) :
    (∀ other, best = some other → key (tree.slack.get col) ≤ key (tree.slack.get other)) ∧
      (tree.cols.get first = false → key (tree.slack.get col) ≤ key (tree.slack.get first)) := by
  unfold closer at h
  split at h
  · next hfirst =>
      subst h
      refine ⟨fun other hother => ?_, fun hnot => absurd hfirst (by simp [hnot])⟩
      rw [Option.some.inj hother]
  · split at h
    · obtain rfl := Option.some.inj h
      exact ⟨fun other hother => absurd hother (by simp), fun _ => le_refl _⟩
    · next other =>
        rw [hkey] at h
        split at h
        · next hless =>
            obtain rfl := Option.some.inj h
            refine ⟨fun best hbest => ?_, fun _ => le_refl _⟩
            rw [← Option.some.inj hbest]
            exact (of_decide_eq_true hless).le
        · next hless =>
            obtain rfl := Option.some.inj h
            refine ⟨fun best hbest => ?_, fun _ => not_lt.mp fun hlt =>
              hless (decide_eq_true hlt)⟩
            rw [Option.some.inj hbest]

/-- In the total order no column outside is closer than the one that is taken. -/
theorem key_le_of_foldl_closer {best : Option (Fin size)} {cols : List (Fin size)}
    (h : cols.foldl tree.closer best = some col) :
    (∀ other, best = some other → key (tree.slack.get col) ≤ key (tree.slack.get other)) ∧
      ∀ other ∈ cols, tree.cols.get other = false →
        key (tree.slack.get col) ≤ key (tree.slack.get other) := by
  induction cols generalizing best with
  | nil =>
      refine ⟨fun other hother => ?_, fun other hother => absurd hother List.not_mem_nil⟩
      obtain rfl := Option.some.inj (h.symm.trans hother)
      exact le_refl _
  | cons first rest ih =>
      rw [List.foldl_cons] at h
      obtain ⟨hbest, hrest⟩ := ih h
      have hstep : best.isSome ∨ tree.cols.get first = false →
          ∃ found, tree.closer best first = some found := fun hsome =>
        Option.isSome_iff_exists.mp (isSome_closer hsome)
      constructor
      · intro other hother
        obtain ⟨found, hfound⟩ := hstep (.inl (by rw [hother]; rfl))
        exact (hbest found hfound).trans ((key_le_of_closer key hkey hfound).1 other hother)
      · intro other hother houtside
        rcases List.mem_cons.mp hother with rfl | hmem
        · obtain ⟨found, hfound⟩ := hstep (.inr houtside)
          exact (hbest found hfound).trans ((key_le_of_closer key hkey hfound).2 houtside)
        · exact hrest other hmem houtside

/-- Where costs are ordered by a key, no column outside the tree has a slack of a lesser key than
the closest one. -/
theorem key_le_of_closest? (h : tree.closest? = some col) {other : Fin size}
    (hother : tree.cols.get other = false) :
    key (tree.slack.get col) ≤ key (tree.slack.get other) :=
  (key_le_of_foldl_closer key hkey h).2 other (List.mem_finRange other) hother

end Key

theorem exists_closest?_eq_some (hcol : tree.cols.get col = false) :
    ∃ found, tree.closest? = some found :=
  Option.isSome_iff_exists.mp (isSome_foldl_closer (.inr ⟨col, List.mem_finRange col, hcol⟩))

end Tree

namespace Search

variable {problem : Problem α size} {matching : Matching size} {state next last : State α size}
  {root col : Fin size} {path : Path size} {error : SearchError}

inductive Step (problem : Problem α size) (matching : Matching size) :
    State α size → State α size → Prop
  | tighten {state : State α size} {col : Fin size} (hclosest : state.tree.closest? = some col)
      (hfar : problem.epsilon < state.tree.slack.get col) :
      Step problem matching state (state.tighten (state.tree.slack.get col))
  | join {state : State α size} {col row : Fin size} (hclosest : state.tree.closest? = some col)
      (hnear : ¬problem.epsilon < state.tree.slack.get col)
      (hmatched : matching.rowOf col = some row) (hfresh : state.tree.rows.get row = false) :
      Step problem matching state ((state.reach col).enter problem row)

structure Arrives (problem : Problem α size) (matching : Matching size) (state : State α size)
    (col : Fin size) (last : State α size) : Prop where
  closest : state.tree.closest? = some col
  near : ¬problem.epsilon < state.tree.slack.get col
  free : matching.rowOf col = none
  last_eq : last = state.reach col

inductive Breaks (problem : Problem α size) (matching : Matching size) (state : State α size) :
    SearchError → State α size → Prop
  | noColumnLeft (hclosest : state.tree.closest? = none) :
      Breaks problem matching state .noColumnLeft state
  | rowReachedTwice {col row : Fin size} (hclosest : state.tree.closest? = some col)
      (hnear : ¬problem.epsilon < state.tree.slack.get col)
      (hmatched : matching.rowOf col = some row) (hvisited : state.tree.rows.get row = true) :
      Breaks problem matching state .rowReachedTwice (state.reach col)

/-- The last step of a search, and what `explore` answers then. -/
inductive Ends (problem : Problem α size) (matching : Matching size) (state : State α size) :
    State α size × Except SearchError (Fin size) → Prop
  | arrives {col : Fin size} {last : State α size} (h : Arrives problem matching state col last) :
      Ends problem matching state (last, .ok col)
  | breaks {error : SearchError} {last : State α size}
      (h : Breaks problem matching state error last) :
      Ends problem matching state (last, .error error)

theorem step_of_advance (h : advance problem matching state = .grows next) :
    Step problem matching state next := by
  unfold advance at h
  split at h
  · cases h
  · next col hclosest =>
      dsimp only at h
      split at h
      · next hfar =>
          cases h
          exact .tighten hclosest hfar
      · next hnear =>
          unfold State.join at h
          dsimp only at h
          split at h
          · cases h
          · next row hmatched =>
              split at h
              · cases h
              · next hfresh =>
                  cases h
                  exact .join hclosest hnear hmatched (Bool.eq_false_of_not_eq_true hfresh)

theorem arrives_of_advance (h : advance problem matching state = .arrives col last) :
    Arrives problem matching state col last := by
  unfold advance at h
  split at h
  · cases h
  · next other hclosest =>
      dsimp only at h
      split at h
      · cases h
      · next hnear =>
          unfold State.join at h
          dsimp only at h
          split at h
          · next hfree =>
              cases h
              exact ⟨hclosest, hnear, hfree, rfl⟩
          · split at h <;> cases h

/-- The potentials rest as long as a column is near. -/
theorem advance_eq_join (hclosest : state.tree.closest? = some col)
    (hnear : ¬problem.epsilon < state.tree.slack.get col) :
    advance problem matching state = state.join problem matching col := by
  rw [advance, hclosest]
  exact if_neg hnear

theorem advance_of_step (h : Step problem matching state next) :
    advance problem matching state = .grows next := by
  cases h with
  | tighten hclosest hfar =>
      rw [advance, hclosest]
      exact if_pos hfar
  | @join col row hclosest hnear hmatched hfresh =>
      have hnew : ¬(state.reach col).tree.rows.get row = true := by
        rw [Bool.not_eq_true]
        exact hfresh
      rw [advance_eq_join hclosest hnear, State.join, hmatched]
      exact if_neg hnew

theorem advance_of_arrives (h : Arrives problem matching state col last) :
    advance problem matching state = .arrives col last := by
  obtain ⟨hclosest, hnear, hfree, rfl⟩ := h
  rw [advance_eq_join hclosest hnear, State.join, hfree]

theorem breaks_of_advance (h : advance problem matching state = .breaks error last) :
    Breaks problem matching state error last := by
  unfold advance at h
  split at h
  · next hclosest =>
      cases h
      exact .noColumnLeft hclosest
  · next col hclosest =>
      dsimp only at h
      split at h
      · cases h
      · next hnear =>
          unfold State.join at h
          dsimp only at h
          split at h
          · cases h
          · next row hmatched =>
              split at h
              · next hvisited =>
                  cases h
                  exact .rowReachedTwice hclosest hnear hmatched hvisited
              · cases h

def Steps (problem : Problem α size) (matching : Matching size) :
    State α size → State α size → Prop :=
  Relation.ReflTransGen (Step problem matching)

inductive Passes (problem : Problem α size) (matching : Matching size) (start : State α size) :
    State α size → Prop
  | start : Passes problem matching start start
  | grow {state next : State α size} (hstate : Passes problem matching start state)
      (hadvance : advance problem matching state = .grows next) :
      Passes problem matching start next

theorem Passes.head {start : State α size} (hadvance : advance problem matching start = .grows next)
    (h : Passes problem matching next state) : Passes problem matching start state := by
  induction h with
  | start => exact .grow .start hadvance
  | grow _ hstep ih => exact .grow ih hstep

theorem Passes.steps {start : State α size} (h : Passes problem matching start state) :
    Steps problem matching start state := by
  induction h with
  | start => exact .refl
  | grow _ hadvance ih => exact ih.tail (step_of_advance hadvance)

theorem exists_passes_of_explore {steps : Nat}
    (h : explore problem matching steps state = (last, .ok col)) :
    ∃ middle, Passes problem matching state middle ∧
      advance problem matching middle = .arrives col last := by
  induction steps generalizing state with
  | zero => cases h
  | succ steps ih =>
      rw [explore] at h
      split at h
      · next next hnext =>
          obtain ⟨middle, hpasses, harrives⟩ := ih h
          exact ⟨middle, hpasses.head hnext, harrives⟩
      · next hlast =>
          cases h
          exact ⟨state, .start, hlast⟩
      · cases h

/-- What arrives has come there by steps. -/
theorem exists_steps_of_explore {steps : Nat}
    (h : explore problem matching steps state = (last, .ok col)) :
    ∃ middle, Steps problem matching state middle ∧ Arrives problem matching middle col last := by
  obtain ⟨middle, hpasses, harrives⟩ := exists_passes_of_explore h
  exact ⟨middle, hpasses.steps, arrives_of_advance harrives⟩

/-- A search that is cut short has used up its steps. -/
theorem explore_cases (problem : Problem α size) (matching : Matching size) (steps : Nat)
    (state : State α size) :
    (∃ middle, Steps problem matching state middle ∧
      Ends problem matching middle (explore problem matching steps state)) ∨
    (explore problem matching steps state).2 = .error .stalled := by
  induction steps generalizing state with
  | zero => exact .inr rfl
  | succ steps ih =>
      rw [explore]
      cases hadvance : advance problem matching state with
      | grows next =>
          rcases ih next with ⟨middle, hsteps, hends⟩ | hstalled
          · exact .inl ⟨middle, hsteps.head (step_of_advance hadvance), hends⟩
          · exact .inr hstalled
      | arrives col last => exact .inl ⟨state, .refl, .arrives (arrives_of_advance hadvance)⟩
      | breaks error last => exact .inl ⟨state, .refl, .breaks (breaks_of_advance hadvance)⟩

/-- A search ends, and with the same answer however many steps it is allowed beyond a measure that
falls with every step. -/
theorem exists_ends (Inv : State α size → Prop) (measure : State α size → Nat)
    (hgrows : ∀ state next, Inv state → Step problem matching state next →
      Inv next ∧ measure next < measure state)
    (hinv : Inv state) :
    ∃ middle answer, Steps problem matching state middle ∧
      Ends problem matching middle answer ∧
      ∀ steps, measure state < steps → explore problem matching steps state = answer := by
  induction hmeasure : measure state using Nat.strong_induction_on generalizing state with
  | _ bound ih =>
      have hpos : ∀ steps, bound < steps → ∃ fewer, steps = fewer + 1 ∧ bound ≤ fewer :=
        fun steps hsteps => ⟨steps - 1, by omega, by omega⟩
      cases hadvance : advance problem matching state with
      | grows next =>
          have hstep := step_of_advance hadvance
          obtain ⟨hnext, hless⟩ := hgrows state next hinv hstep
          obtain ⟨middle, answer, hsteps, hends, hexplore⟩ := ih _ (hmeasure ▸ hless) hnext rfl
          refine ⟨middle, answer, hsteps.head hstep, hends, fun steps hlt => ?_⟩
          obtain ⟨fewer, rfl, hle⟩ := hpos steps hlt
          rw [explore, hadvance]
          exact hexplore fewer (by omega)
      | arrives col last =>
          refine ⟨state, _, .refl, .arrives (arrives_of_advance hadvance), fun steps hlt => ?_⟩
          obtain ⟨fewer, rfl, -⟩ := hpos steps hlt
          rw [explore, hadvance]
      | breaks error last =>
          refine ⟨state, _, .refl, .breaks (breaks_of_advance hadvance), fun steps hlt => ?_⟩
          obtain ⟨fewer, rfl, -⟩ := hpos steps hlt
          rw [explore, hadvance]

theorem run_of_arrived (hroot : matching.colOf root = none)
    (h : explore problem matching (2 * size + 1) (state.plant problem root) = (last, .ok col)) :
    run problem matching state root = (last, last.tree.traceBack matching root size col []) := by
  rw [run, hroot, h]
  rfl

theorem run_of_broken (hroot : matching.colOf root = none)
    (h : explore problem matching (2 * size + 1) (state.plant problem root) =
      (last, .error error)) : run problem matching state root = (last, .error error) := by
  rw [run, hroot, h]
  rfl

theorem exists_explore_of_run (h : run problem matching state root = (last, .ok path)) :
    matching.colOf root = none ∧ ∃ col,
      explore problem matching (2 * size + 1) (state.plant problem root) = (last, .ok col) ∧
      last.tree.traceBack matching root size col [] = .ok path := by
  unfold run at h
  split at h
  · cases h
  · next hroot =>
      refine ⟨by simpa using hroot, ?_⟩
      split at h
      · cases h
      · next last col hexplore =>
          rw [Prod.mk.injEq] at h
          obtain ⟨rfl, htrace⟩ := h
          exact ⟨col, hexplore, htrace⟩

/-- Whatever the arithmetic, a path that a search finds is traced back in its last tree, from a free
column to the free root. -/
theorem exists_steps_of_run (h : run problem matching state root = (last, .ok path)) :
    matching.colOf root = none ∧
      ∃ middle col, Steps problem matching (state.plant problem root) middle ∧
        Arrives problem matching middle col last ∧
        last.tree.LeadsBack matching root col path := by
  obtain ⟨hroot, col, hexplore, htrace⟩ := exists_explore_of_run h
  obtain ⟨front, hfront, hpath⟩ := Tree.leadsBack_of_traceBack htrace
  obtain ⟨middle, hsteps, harrives⟩ := exists_steps_of_explore hexplore
  rw [List.append_nil] at hpath
  exact ⟨hroot, middle, col, hsteps, harrives, hpath ▸ hfront⟩

/-- A path that is found can be added to the matching. -/
theorem augments_of_run (h : run problem matching state root = (last, .ok path)) :
    matching.Augments path ∧ path.head?.map Prod.fst = some root := by
  obtain ⟨hroot, middle, col, -, harrives, htrace⟩ := exists_steps_of_run h
  exact ⟨htrace.augments hroot harrives.free, htrace.head?_eq⟩

end Search

end Hungarian
