import Hungarian.Proofs.Matching.Perfect
import Hungarian.Proofs.Search.Ending

/-!
# The rows and the columns of a tree

Whatever the arithmetic, a tree holds its root and the rows that its columns are matched to. A
search from a free row of a consistent matching therefore cannot break before it meets a free column;
it meets one as soon as each move of the potentials brings a column near.
-/

namespace Hungarian

variable {α : Type} {size : Nat} {matching : Matching size} {root col row : Fin size}

namespace Tree

structure Spans (matching : Matching size) (root : Fin size) (tree : Tree α size) : Prop where
  root_mem : tree.rows.get root = true
  row_mem_iff : ∀ row, row ≠ root → (tree.rows.get row = true ↔
    ∃ col, matching.colOf row = some col ∧ tree.cols.get col = true)
  col_mem_iff : ∀ col, tree.cols.get col = true ↔ col ∈ tree.reached
  reached_nodup : tree.reached.Nodup

structure IsGrowing (matching : Matching size) (root : Fin size) (tree : Tree α size) : Prop
    extends Spans matching root tree where
  col_matched : ∀ col, tree.cols.get col = true → (matching.rowOf col).isSome

variable {tree : Tree α size}

namespace Spans

variable (h : tree.Spans matching root)

include h

theorem isLogged : tree.IsLogged where
  col_mem_iff := h.col_mem_iff
  reached_nodup := h.reached_nodup

/-- A matched row is in the tree exactly when its column is. -/
theorem row_mem_iff_of_matched (hroot : matching.colOf root = none)
    (hmatched : matching.colOf row = some col) :
    tree.rows.get row = true ↔ tree.cols.get col = true := by
  have hne : row ≠ root := by
    rintro rfl
    rw [hroot] at hmatched
    exact absurd hmatched (by simp)
  rw [h.row_mem_iff row hne]
  constructor
  · rintro ⟨other, hother, hinside⟩
    rwa [Option.some.inj (hmatched.symm.trans hother)]
  · intro hinside
    exact ⟨col, hmatched, hinside⟩

/-- A free column is the last one to join. -/
theorem reach_free (hconsistent : matching.Consistent) (hcol : tree.cols.get col = false)
    (hfree : matching.rowOf col = none) : (tree.reach col).Spans matching root where
  root_mem := h.root_mem
  row_mem_iff := by
    intro row hrow
    refine (h.row_mem_iff row hrow).trans (exists_congr fun other => and_congr_right ?_)
    intro hother
    have hne : other ≠ col := by
      intro heq
      rw [heq, hconsistent, hfree] at hother
      exact absurd hother (by simp)
    rw [cols_reach, if_neg hne]
  col_mem_iff := (h.isLogged.reach hcol).col_mem_iff
  reached_nodup := (h.isLogged.reach hcol).reached_nodup

end Spans

variable [CostArithmetic α] {problem : Problem α size} {potentials : Potentials α size}

theorem isGrowing_plant (problem : Problem α size) (potentials : Potentials α size)
    (tree : Tree α size) (root : Fin size) :
    (plant problem potentials tree root).IsGrowing matching root where
  root_mem := by simp [rows_plant]
  row_mem_iff := by
    intro row hrow
    simp [rows_plant, cols_plant, hrow]
  col_mem_iff := (isTallied_plant problem potentials tree root).col_mem_iff
  reached_nodup := (isTallied_plant problem potentials tree root).reached_nodup
  col_matched := by
    intro col hcol
    rw [cols_plant] at hcol
    exact absurd hcol (by simp)

theorem IsGrowing.tighten (h : tree.IsGrowing matching root) (delta : α) :
    (tree.tighten delta).IsGrowing matching root where
  root_mem := h.root_mem
  row_mem_iff := h.row_mem_iff
  col_mem_iff := (h.isLogged.tighten delta).col_mem_iff
  reached_nodup := (h.isLogged.tighten delta).reached_nodup
  col_matched := h.col_matched

/-- A matched column joins the tree together with its row. -/
theorem IsGrowing.join (h : tree.IsGrowing matching root) (hconsistent : matching.Consistent)
    (hcol : tree.cols.get col = false) (hmatched : matching.rowOf col = some row) :
    ((tree.reach col).enter problem potentials row).IsGrowing matching root where
  root_mem := by
    rw [rows_enter]
    split
    · rfl
    · exact h.root_mem
  row_mem_iff := by
    intro other hother
    have hrow : matching.colOf row = some col := (hconsistent row col).mpr hmatched
    rw [rows_enter]
    by_cases heq : other = row
    · rw [if_pos heq, heq]
      refine iff_of_true rfl ⟨col, hrow, ?_⟩
      exact (cols_reach tree col col).trans (if_pos rfl)
    · rw [if_neg heq]
      refine (h.row_mem_iff other hother).trans (exists_congr fun next => and_congr_right ?_)
      intro hnext
      have hne : next ≠ col := by
        rintro rfl
        exact heq (hconsistent.row_unique hnext hrow)
      exact (iff_of_eq (congrArg (· = true) ((cols_reach tree col next).trans (if_neg hne)))).symm
  col_mem_iff := (h.isLogged.reach hcol).col_mem_iff
  reached_nodup := (h.isLogged.reach hcol).reached_nodup
  col_matched := by
    intro other hother
    have hreach := hother
    replace hreach : (tree.reach col).cols.get other = true := hreach
    rw [cols_reach] at hreach
    split at hreach
    · next heq => rw [heq, hmatched]; rfl
    · exact h.col_matched other hreach

end Tree

namespace Search

variable [CostArithmetic α] {problem : Problem α size} {state next middle last : State α size}
  {answer : State α size × Except SearchError (Fin size)}

section Consistent

variable (hconsistent : matching.Consistent)

include hconsistent

theorem isGrowing_of_step (hgrowing : state.tree.IsGrowing matching root)
    (h : Step problem matching state next) : next.tree.IsGrowing matching root := by
  cases h with
  | tighten => exact hgrowing.tighten _
  | join hclosest _ hmatched _ =>
      exact hgrowing.join hconsistent (Tree.outside_of_closest? hclosest) hmatched

theorem isGrowing_of_steps (hgrowing : state.tree.IsGrowing matching root)
    (h : Steps problem matching state next) : next.tree.IsGrowing matching root := by
  induction h with
  | refl => exact hgrowing
  | tail _ hstep ih => exact isGrowing_of_step hconsistent ih hstep

theorem spans_of_arrives (hgrowing : state.tree.IsGrowing matching root)
    (h : Arrives problem matching state col last) : last.tree.Spans matching root := by
  rw [h.last_eq]
  exact hgrowing.reach_free hconsistent (Tree.outside_of_closest? h.closest) h.free

/-- A search from a free row cannot come back to a row: it would have to reach the column of the row
a second time. -/
theorem exists_arrives_of_ends (hroot : matching.colOf root = none)
    (hsteps : Steps problem matching (state.plant problem root) middle)
    (hends : Ends problem matching middle answer) :
    ∃ col last, answer = (last, .ok col) ∧ Arrives problem matching middle col last := by
  have hgrowing : middle.tree.IsGrowing matching root :=
    isGrowing_of_steps hconsistent (Tree.isGrowing_plant _ _ _ _) hsteps
  have hne := ne_noColumnLeft_of_ends hsteps hends
  cases hends with
  | arrives harrives => exact ⟨_, _, rfl, harrives⟩
  | breaks hbreaks =>
      cases hbreaks with
      | noColumnLeft => exact absurd rfl hne
      | @rowReachedTwice col row hclosest _ hmatched hvisited =>
          have hrow : matching.colOf row = some col := (hconsistent row col).mpr hmatched
          have hinside := (hgrowing.row_mem_iff_of_matched hroot hrow).mp hvisited
          rw [Tree.outside_of_closest? hclosest] at hinside
          exact absurd hinside (by simp)

/-- A search from a free row meets a free column, if moves of the potentials bring columns near. -/
theorem exists_explore_plant_eq_ok (hroot : matching.colOf root = none)
    (hprogress : Progresses problem) (state : State α size) :
    ∃ last col, explore problem matching (2 * size + 1) (state.plant problem root) =
      (last, .ok col) := by
  obtain ⟨middle, answer, hsteps, hends, hexplore⟩ :=
    exists_ends_plant hprogress matching state root
  obtain ⟨col, last, hanswer, -⟩ := exists_arrives_of_ends hconsistent hroot hsteps hends
  exact ⟨last, col, (hexplore _ le_rfl).trans hanswer⟩

end Consistent

end Search

end Hungarian
