import Hungarian.Proofs.Matching.Perfect
import Hungarian.Proofs.Search.Steps
import Hungarian.Stage

/-!
# Growing a matching row by row

Every search that finds a path matches one more row, with any arithmetic, so the matching of a final
stage is a permutation.
-/

namespace Hungarian.Stage

variable {α : Type} {size : Nat} [CostArithmetic α] {problem : Problem α size}
  {stage next last : Stage α size} {row : Fin size} {rows : List (Fin size)}

theorem matchRow_eq_ok_iff : stage.matchRow problem row = (next, .ok ()) ↔
    ∃ last path, Search.run problem stage.matching stage.state row = (last, .ok path) ∧
      (stage.matching.augment path).count = row + 1 ∧
      next = { matching := stage.matching.augment path, state := last, searches :=
        stage.searches ++ [{ row, deltas := last.tree.deltas, path := .ok path }] } := by
  unfold matchRow
  rcases Search.run problem stage.matching stage.state row with ⟨state, error | path⟩
  · simp
  · dsimp only
    split
    · next hcount => simp [hcount, eq_comm]
    · next hcount => simp [hcount]

theorem exists_augments_of_matchRow (h : stage.matchRow problem row = (next, .ok ())) :
    ∃ path, stage.matching.Augments path ∧ path.head?.map Prod.fst = some row ∧
      next.matching = stage.matching.augment path := by
  obtain ⟨last, path, hrun, -, rfl⟩ := matchRow_eq_ok_iff.mp h
  obtain ⟨haugments, hhead⟩ := Search.augments_of_run hrun
  exact ⟨path, haugments, hhead, rfl⟩

theorem consistent_and_count_of_matchRows (hconsistent : stage.matching.Consistent)
    (h : stage.matchRows problem rows = (last, .ok ())) :
    last.matching.Consistent ∧ last.matching.count = stage.matching.count + rows.length := by
  induction rows generalizing stage with
  | nil =>
      cases h
      exact ⟨hconsistent, rfl⟩
  | cons row rest ih =>
      rw [matchRows] at h
      split at h
      · next next hrow =>
          obtain ⟨path, haugments, -, hnext⟩ := exists_augments_of_matchRow hrow
          have hconsistent' : next.matching.Consistent := by
            rw [hnext]
            exact haugments.consistent_augment hconsistent
          obtain ⟨hlast, hcount⟩ := ih hconsistent' h
          refine ⟨hlast, ?_⟩
          rw [hcount, hnext, haugments.count_augment, List.length_cons]
          omega
      · cases h

theorem count_initial : (initial problem).matching.count = 0 := by
  simp [initial, Matching.count]

theorem exists_realizes_of_final (h : final problem = (last, .ok ())) :
    ∃ σ, last.matching.Realizes σ := by
  obtain ⟨hconsistent, hcount⟩ :=
    consistent_and_count_of_matchRows Matching.consistent_empty h
  apply hconsistent.exists_realizes
  rw [hcount, count_initial, List.length_finRange, Nat.zero_add]

end Hungarian.Stage
