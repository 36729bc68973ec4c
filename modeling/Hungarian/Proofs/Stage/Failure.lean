import Hungarian.Proofs.Search.Alternating
import Hungarian.Proofs.Stage.Visits

/-!
# How a run can fail

Whatever the arithmetic, as long as the moves of the potentials bring columns near, a search can only
fail on its way back. The parents that earlier searches left behind are rows above the root, all of
which are matched, so that the way back never breaks off; it can go round, but only when the root
does not reach some column below the ceiling.
-/

namespace Hungarian

variable {α : Type} {size : Nat} {matching : Matching size} {root col : Fin size}

namespace Tree

variable {tree : Tree α size} {error : SearchError} {rest : Path size} {bound : Nat}

def ParentsWithin (bound : Nat) (tree : Tree α size) : Prop :=
  ∀ col, (tree.parent.get col).val ≤ bound

theorem eq_cyclicPath_of_traceBack {steps : Nat}
    (hmatched : ∀ col, tree.parent.get col ≠ root →
      (matching.colOf (tree.parent.get col)).isSome)
    (h : tree.traceBack matching root steps col rest = .error error) : error = .cyclicPath := by
  rcases error_of_traceBack h with hcyclic | ⟨-, last, hpass, hfree⟩
  · exact hcyclic
  · have hsome := hmatched last hpass
    rw [hfree] at hsome
    exact absurd hsome (by simp)

variable [CostArithmetic α] {problem : Problem α size} {potentials : Potentials α size}

theorem parentsWithin_blank : (blank : Tree α size).ParentsWithin bound := by
  intro col
  have hparent : (blank : Tree α size).parent.get col = ⟨0, col.pos⟩ := get_ofFn _ col
  rw [hparent]
  exact Nat.zero_le _

theorem ParentsWithin.plant (h : tree.ParentsWithin bound) (hroot : root.val ≤ bound) :
    (plant problem potentials tree root).ParentsWithin bound := by
  intro col
  rw [parent_plant]
  split
  · exact hroot
  · exact h col

/-- Only the row that enters becomes a parent. -/
theorem ParentsWithin.enter {row : Fin size} (h : tree.ParentsWithin bound)
    (hrow : row.val ≤ bound) : (tree.enter problem potentials row).ParentsWithin bound := by
  intro col
  rw [parent_enter]
  split
  · exact hrow
  · exact h col

end Tree

namespace Search

variable [CostArithmetic α] {problem : Problem α size} {state next last : State α size}
  {bound : Nat}

section Consistent

variable (hconsistent : matching.Consistent)
  (hbound : ∀ row : Fin size, (matching.colOf row).isSome → row.val ≤ bound)

include hconsistent hbound

theorem parentsWithin_of_step (hparents : state.tree.ParentsWithin bound)
    (h : Step problem matching state next) : next.tree.ParentsWithin bound := by
  cases h with
  | tighten => exact hparents
  | @join col row _ _ hmatched _ =>
      have hrow : matching.colOf row = some col := (hconsistent row col).mpr hmatched
      have hreach : (state.reach col).tree.ParentsWithin bound := hparents
      exact hreach.enter (hbound row (by rw [hrow]; rfl))

theorem parentsWithin_of_steps (hparents : state.tree.ParentsWithin bound)
    (h : Steps problem matching state next) : next.tree.ParentsWithin bound := by
  induction h with
  | refl => exact hparents
  | tail _ hstep ih => exact parentsWithin_of_step hconsistent hbound ih hstep

/-- The parents of a search from a row below all matched ones. -/
theorem parentsWithin_of_explore {steps : Nat} (hparents : state.tree.ParentsWithin bound)
    (hroot : root.val ≤ bound)
    (h : explore problem matching steps (state.plant problem root) = (last, .ok col)) :
    last.tree.ParentsWithin bound := by
  obtain ⟨middle, hsteps, harrives⟩ := exists_steps_of_explore h
  have hmiddle : middle.tree.ParentsWithin bound :=
    parentsWithin_of_steps hconsistent hbound (hparents.plant hroot) hsteps
  rw [harrives.last_eq]
  exact hmiddle

end Consistent

end Search

namespace Stage

variable [CostArithmetic α] {problem : Problem α size} {stage last : Stage α size} {count : Nat}
  {row : Fin size} {failure : Failure α}

theorem Reached.parentsWithin (h : Reached problem count stage) :
    stage.state.tree.ParentsWithin count := by
  induction h with
  | initial => exact Tree.parentsWithin_blank
  | @matchRow stage next row hstage hmatch ih =>
      obtain ⟨last, path, hrun, -, rfl⟩ := matchRow_eq_ok_iff.mp hmatch
      obtain ⟨-, col, hexplore, -⟩ := Search.exists_explore_of_run hrun
      have hlast := Search.parentsWithin_of_explore hstage.consistent
        (fun other hother => ((hstage.matched_iff other).mp hother).le) ih le_rfl hexplore
      exact fun col => (hlast col).trans (Nat.le_succ _)

/-- A run fails only where one of its searches does. -/
theorem Reached.exists_error_of_matchRow (h : Reached problem row stage)
    (hmatch : stage.matchRow problem row = (last, .error failure)) :
    ∃ error, (Search.run problem stage.matching stage.state row).2 = .error error ∧
      failure = error.toFailure := by
  rw [Stage.matchRow] at hmatch
  rcases hrun : Search.run problem stage.matching stage.state row with ⟨state, error | path⟩
  · rw [hrun] at hmatch
    cases hmatch
    exact ⟨error, rfl, rfl⟩
  · obtain ⟨haugments, -⟩ := Search.augments_of_run hrun
    have hcount : (stage.matching.augment path).count = row + 1 := by
      rw [haugments.count_augment, h.count_eq]
    rw [hrun] at hmatch
    dsimp only at hmatch
    rw [if_pos hcount] at hmatch
    cases hmatch

/-- **Errors that never occur.** A search does not run out of columns, even if its matching is not
consistent: each column that it takes in comes with a row of its own, and the root is one row more.
And every path of a run makes the matching grow, even if its parents stem from an earlier search:
the way back meets no cell twice and ends at a free row. -/
theorem excludes_reasons (problem : Problem α size) :
    (∀ (matching : Matching size) (state : Search.State α size) (root : Fin size),
      (∀ steps, (Search.explore problem matching steps (state.plant problem root)).2 ≠
        .error .noColumnLeft) ∧
      ∀ error, (Search.run problem matching state root).2 = .error error →
        error.reason ≠ "augmenting path search ran out of columns") ∧
    (final problem).2 ≠ .error (.refused (.internal "augmenting path did not grow the matching")) := by
  refine ⟨fun matching state root => ⟨?_, fun error herror => ?_⟩, fun hfailed => ?_⟩
  · exact Search.explore_ne_noColumnLeft problem matching state root
  · cases error with
    | noColumnLeft => exact absurd herror (Search.run_ne_noColumnLeft problem matching state root)
    | _ => decide
  · rcases final_cases problem with ⟨last, hfinal, -⟩ | ⟨stage, row, last, failure, h, hmatch, hfinal⟩
    · rw [hfinal] at hfailed
      cases hfailed
    · obtain ⟨error, -, rfl⟩ := h.exists_error_of_matchRow hmatch
      rw [hfinal, Except.error.injEq] at hfailed
      cases error <;> simp [SearchError.toFailure, SearchError.reason] at hfailed

/-- The rows that a way back of a run comes through are the root and matched ones. -/
theorem Reached.eq_cyclicPath_of_run (h : Reached problem row stage)
    (hprogress : Search.Progresses problem) {error : SearchError}
    (herror : (Search.run problem stage.matching stage.state row).2 = .error error) :
    error = .cyclicPath := by
  obtain ⟨last, col, hexplore⟩ := Search.exists_explore_plant_eq_ok h.consistent h.root_free
    hprogress stage.state
  have hparents := Search.parentsWithin_of_explore h.consistent
    (fun other hother => ((h.matched_iff other).mp hother).le) h.parentsWithin le_rfl hexplore
  rw [Search.run_of_arrived h.root_free hexplore] at herror
  refine Tree.eq_cyclicPath_of_traceBack (fun col hne => ?_) herror
  refine (h.matched_iff _).mpr (lt_of_le_of_ne (hparents col) ?_)
  exact fun heq => hne (Fin.ext heq)

/-- The next row is matched, or the way back from a free column goes round and some cell of the row
does not lie below the ceiling. -/
theorem Reached.matchRow_cases (h : Reached problem row stage)
    (hprogress : Search.Progresses problem) :
    (∃ next, stage.matchRow problem row = (next, .ok ())) ∨
    (∃ last, stage.matchRow problem row = (last, .error SearchError.cyclicPath.toFailure)) ∧
      ∃ col, CostArithmetic.belowCeiling
        (stage.state.potentials.reducedCost problem row col) = false := by
  rcases hmatch : stage.matchRow problem row with ⟨next, failure | _⟩
  · obtain ⟨error, herror, rfl⟩ := h.exists_error_of_matchRow hmatch
    obtain rfl := h.eq_cyclicPath_of_run hprogress herror
    refine .inr ⟨⟨next, rfl⟩, ?_⟩
    by_contra hbelow
    have hreached : ∀ col, CostArithmetic.belowCeiling
        (stage.state.potentials.reducedCost problem row col) = true := by
      intro col
      by_contra hcol
      exact hbelow ⟨col, by simpa using hcol⟩
    obtain ⟨other, path, hother⟩ :=
      Search.exists_run_eq_ok h.consistent h.root_free hprogress hreached
    rw [hother] at herror
    cases herror
  · exact .inl ⟨next, rfl⟩

/-- A run matches all rows, or it stops at a row that has a cell not below the ceiling. -/
theorem final_cases_of_progresses (hprogress : Search.Progresses problem) :
    (∃ last, final problem = (last, .ok ()) ∧ Reached problem size last) ∨
    (∃ last, final problem = (last, .error SearchError.cyclicPath.toFailure)) ∧
      ∃ (stage : Stage α size) (row col : Fin size), Reached problem row stage ∧
        CostArithmetic.belowCeiling
          (stage.state.potentials.reducedCost problem row col) = false := by
  rcases final_cases problem with hok | ⟨stage, row, last, failure, hstage, hmatch, hfinal⟩
  · exact .inl hok
  · rcases hstage.matchRow_cases hprogress with ⟨next, hnext⟩ | ⟨⟨next, hnext⟩, col, hcol⟩
    · rw [hnext] at hmatch
      exact absurd hmatch (by simp)
    · rw [hnext, Prod.mk.injEq, Except.error.injEq] at hmatch
      obtain ⟨rfl, rfl⟩ := hmatch
      exact .inr ⟨⟨next, hfinal⟩, stage, row, col, hstage, hcol⟩

end Stage

end Hungarian
