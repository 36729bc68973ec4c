import Mathlib.Data.Fintype.Fin
import Hungarian.Proofs.Search.Spanning
import Hungarian.Proofs.Stage.Growth

/-!
# The states that a run passes through

A run goes from stage to stage, and between two stages its search goes from state to state. With any
arithmetic the matching of a stage is consistent, and the rows matched at it are those before the row
that comes next; a run that fails does so in the search of one row.
-/

namespace Hungarian

variable {α : Type} {size : Nat} [CostArithmetic α] {problem : Problem α size}

namespace Stage

variable {stage next last : Stage α size} {row : Fin size} {rows : List (Fin size)} {count : Nat}
  {failure : Failure α}

inductive Reached (problem : Problem α size) : Nat → Stage α size → Prop
  | initial : Reached problem 0 (initial problem)
  | matchRow {stage next : Stage α size} {row : Fin size} (hstage : Reached problem row stage)
      (hmatch : stage.matchRow problem row = (next, .ok ())) : Reached problem (row + 1) next

/-- The states that a run passes through: those of its stages, and those of the searches between
them, each with the matching at that time and the root of the search. -/
inductive Visits (problem : Problem α size) :
    Matching size → Option (Fin size) → Search.State α size → Prop
  | stage {stage : Stage α size} {count : Nat} (hstage : Reached problem count stage) :
      Visits problem stage.matching none stage.state
  | search {stage : Stage α size} {row : Fin size} {state : Search.State α size}
      (hstage : Reached problem row stage)
      (hpasses : Search.Passes problem stage.matching (stage.state.plant problem row) state) :
      Visits problem stage.matching (some row) state
  | arrival {stage : Stage α size} {row col : Fin size} {state last : Search.State α size}
      (hstage : Reached problem row stage)
      (hpasses : Search.Passes problem stage.matching (stage.state.plant problem row) state)
      (hadvance : Search.advance problem stage.matching state = .arrives col last) :
      Visits problem stage.matching (some row) last

/-- The state in which a search ends that matches its row. -/
theorem Reached.visits_of_matchRow (h : Reached problem row stage)
    (hmatch : stage.matchRow problem row = (next, .ok ())) :
    Visits problem stage.matching (some row) next.state := by
  obtain ⟨last, path, hrun, -, rfl⟩ := matchRow_eq_ok_iff.mp hmatch
  obtain ⟨-, col, hexplore, -⟩ := Search.exists_explore_of_run hrun
  obtain ⟨middle, hpasses, hadvance⟩ := Search.exists_passes_of_explore hexplore
  exact .arrival h hpasses hadvance

theorem Reached.consistent (h : Reached problem count stage) : stage.matching.Consistent := by
  induction h with
  | initial => exact Matching.consistent_empty
  | matchRow _ hmatch ih =>
      obtain ⟨path, haugments, -, hnext⟩ := exists_augments_of_matchRow hmatch
      rw [hnext]
      exact haugments.consistent_augment ih

theorem Reached.matched_iff (h : Reached problem count stage) (row : Fin size) :
    (stage.matching.colOf row).isSome ↔ row < count := by
  induction h with
  | initial =>
      have hfree : (Stage.initial problem).matching.colOf row = none := Matching.colOf_empty row
      simp [hfree]
  | @matchRow stage next root _ hmatch ih =>
      obtain ⟨path, haugments, hhead, hnext⟩ := exists_augments_of_matchRow hmatch
      rw [hnext, haugments.isSome_colOf_augment_iff hhead, ih, Fin.ext_iff]
      omega

theorem Reached.root_free (h : Reached problem row stage) : stage.matching.colOf row = none := by
  have hnot := (h.matched_iff row).not.mpr (lt_irrefl _)
  simpa using hnot

theorem Reached.count_le (h : Reached problem count stage) : count ≤ size := by
  cases h with
  | initial => exact Nat.zero_le _
  | @matchRow _ _ row => exact row.isLt

theorem Reached.count_eq (h : Reached problem count stage) :
    stage.matching.count = count := by
  have hle := h.count_le
  simp only [Matching.count_eq_card, h.matched_iff, Fin.card_filter_val_lt]
  omega

/-- A run that is not over goes on with the next row. -/
theorem drop_finRange_cases (size count : Nat) :
    size ≤ count ∧ (List.finRange size).drop count = [] ∨
      ∃ row : Fin size, row = count ∧
        (List.finRange size).drop count = row :: (List.finRange size).drop (count + 1) := by
  by_cases hlt : count < size
  · have hlength : count < (List.finRange size).length := by rwa [List.length_finRange]
    refine .inr ⟨⟨count, hlt⟩, rfl, ?_⟩
    rw [List.drop_eq_getElem_cons hlength, List.getElem_finRange]
    rfl
  · refine .inl ⟨Nat.le_of_not_lt hlt, List.drop_eq_nil_of_le ?_⟩
    rw [List.length_finRange]
    omega

/-- The last stage of a run that matches all rows is reached, and otherwise the stage before the
search that fails. -/
theorem Reached.matchRows_cases (h : Reached problem count stage)
    (hrows : rows = (List.finRange size).drop count) :
    (∃ last, stage.matchRows problem rows = (last, .ok ()) ∧ Reached problem size last) ∨
    ∃ (before : Stage α size) (row : Fin size) (last : Stage α size) (failure : Failure α),
      Reached problem row before ∧
      before.matchRow problem row = (last, .error failure) ∧
      stage.matchRows problem rows = (last, .error failure) := by
  induction rows generalizing stage count with
  | nil =>
      rcases drop_finRange_cases size count with ⟨hle, -⟩ | ⟨row, -, hdrop⟩
      · exact .inl ⟨stage, rfl, h.count_le.antisymm hle ▸ h⟩
      · rw [hdrop] at hrows
        exact absurd hrows (List.cons_ne_nil _ _).symm
  | cons row rest ih =>
      rcases drop_finRange_cases size count with ⟨-, hdrop⟩ | ⟨next, hcount, hdrop⟩
      · rw [hdrop] at hrows
        exact absurd hrows (List.cons_ne_nil _ _)
      · rw [hdrop] at hrows
        obtain ⟨rfl, hrest⟩ := List.cons_eq_cons.mp hrows
        subst hcount
        rw [matchRows]
        rcases hmatch : stage.matchRow problem row with ⟨next, failure | _⟩
        · exact .inr ⟨stage, row, next, failure, h, hmatch, rfl⟩
        · exact ih (h.matchRow hmatch) hrest

theorem final_cases (problem : Problem α size) :
    (∃ last, final problem = (last, .ok ()) ∧ Reached problem size last) ∨
    ∃ (before : Stage α size) (row : Fin size) (last : Stage α size) (failure : Failure α),
      Reached problem row before ∧
      before.matchRow problem row = (last, .error failure) ∧
      final problem = (last, .error failure) :=
  Reached.initial.matchRows_cases (List.drop_zero).symm

theorem reached_of_final (h : final problem = (last, .ok ())) : Reached problem size last := by
  rcases final_cases problem with ⟨stage, hfinal, hstage⟩ | ⟨-, -, stage, failure, -, -, hfinal⟩
  · obtain rfl := (Prod.mk.inj (hfinal.symm.trans h)).1
    exact hstage
  · exact nomatch (Prod.mk.inj (hfinal.symm.trans h)).2

end Stage

end Hungarian
