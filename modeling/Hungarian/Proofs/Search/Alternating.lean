import Hungarian.Proofs.Search.Paths
import Hungarian.Proofs.Search.Spanning

/-!
# The shape of an alternating tree

Nothing here depends on the arithmetic, except that the row of the root must lie below the ceiling,
so that no parent is left over from an earlier search. The path of a search from a free row of a
consistent matching can then be traced back: the matched column of a parent joined the tree before
the column that has the parent.
-/

namespace Hungarian

variable {α : Type} {size : Nat} {matching : Matching size} {root col row : Fin size}

namespace Tree

structure Alternates (matching : Matching size) (root : Fin size) (tree : Tree α size) : Prop
    extends Spans matching root tree where
  parent_mem : ∀ col, tree.rows.get (tree.parent.get col) = true
  parent_earlier : ∀ col ∈ tree.reached, ∀ next,
    matching.colOf (tree.parent.get col) = some next →
      tree.reached.idxOf next < tree.reached.idxOf col

structure IsOpen (matching : Matching size) (root : Fin size) (tree : Tree α size) : Prop
    extends Alternates matching root tree, IsGrowing matching root tree

variable {tree : Tree α size} {path : Path size}

namespace Alternates

variable (h : tree.Alternates matching root)

include h

/-- The row of a parent has a matched column in the tree unless it is the root. -/
theorem mem_reached_of_parent (hroot : matching.colOf root = none) {next : Fin size}
    (hnext : matching.colOf (tree.parent.get col) = some next) : next ∈ tree.reached := by
  have hne : tree.parent.get col ≠ root := by
    intro heq
    rw [heq, hroot] at hnext
    exact absurd hnext (by simp)
  obtain ⟨other, hother, hmem⟩ := (h.row_mem_iff _ hne).mp (h.parent_mem col)
  obtain rfl := Option.some.inj (hother.symm.trans hnext)
  exact (h.col_mem_iff other).mp hmem

theorem parent_earlier_reach (hroot : matching.colOf root = none)
    (hcol : tree.cols.get col = false) {other next : Fin size}
    (hother : other ∈ (tree.reach col).reached)
    (hnext : matching.colOf (tree.parent.get other) = some next) :
    (tree.reach col).reached.idxOf next < (tree.reach col).reached.idxOf other := by
  have hmem := h.mem_reached_of_parent hroot hnext
  rw [reached_reach] at hother ⊢
  rw [List.idxOf_append_of_mem hmem]
  rcases List.mem_append.mp hother with hold | hnew
  · rw [List.idxOf_append_of_mem hold]
    exact h.parent_earlier other hold next hnext
  · obtain rfl := List.mem_singleton.mp hnew
    rw [List.idxOf_append_of_notMem (h.isLogged.notMem_reached hcol)]
    have hlt := List.idxOf_lt_length_of_mem hmem
    omega

/-- A free column is the last one to join. -/
theorem reach_free (hconsistent : matching.Consistent) (hroot : matching.colOf root = none)
    (hcol : tree.cols.get col = false) (hfree : matching.rowOf col = none) :
    (tree.reach col).Alternates matching root where
  toSpans := h.toSpans.reach_free hconsistent hcol hfree
  parent_mem := h.parent_mem
  parent_earlier := fun _ hother _ hnext => h.parent_earlier_reach hroot hcol hother hnext

theorem mem_reached_of_leadsBack (hroot : matching.colOf root = none)
    (htrace : tree.LeadsBack matching root col path) (hcol : col ∈ tree.reached)
    {cell : Fin size × Fin size} (hcell : cell ∈ path) : cell.2 ∈ tree.reached := by
  induction htrace with
  | arrive =>
      rwa [List.mem_singleton.mp hcell]
  | pass _ hnext _ ih =>
      rcases List.mem_append.mp hcell with hfront | hlast
      · exact ih (h.mem_reached_of_parent hroot hnext) hfront
      · rwa [List.mem_singleton.mp hlast]

/-- The columns of parents count down along the way back, so the way back ends at the root. -/
theorem exists_leadsBack (hcol : col ∈ tree.reached) :
    ∃ path, tree.LeadsBack matching root col path := by
  induction hindex : tree.reached.idxOf col using Nat.strong_induction_on generalizing col with
  | _ index ih =>
      by_cases hparent : tree.parent.get col = root
      · exact ⟨_, .arrive hparent⟩
      · obtain ⟨next, hnext, hmem⟩ := (h.row_mem_iff _ hparent).mp (h.parent_mem col)
        have hearlier := h.parent_earlier col hcol next hnext
        obtain ⟨path, hpath⟩ := ih _ (hindex ▸ hearlier) ((h.col_mem_iff next).mp hmem) rfl
        exact ⟨_, .pass hparent hnext hpath⟩

end Alternates

variable [CostArithmetic α] {problem : Problem α size} {potentials : Potentials α size}

/-- A root that reaches every column is the parent of every column. -/
theorem isOpen_plant
    (hbelow : ∀ col, CostArithmetic.belowCeiling (potentials.reducedCost problem root col)) :
    (plant problem potentials tree root).IsOpen matching root where
  toSpans := (isGrowing_plant problem potentials tree root).toSpans
  parent_mem := by
    intro col
    rw [parent_plant, if_pos (hbelow col), rows_plant, decide_eq_true rfl]
  parent_earlier := by
    intro col hcol
    exact absurd hcol List.not_mem_nil
  col_matched := (isGrowing_plant problem potentials tree root).col_matched

theorem IsOpen.tighten (h : tree.IsOpen matching root) (delta : α) :
    (tree.tighten delta).IsOpen matching root where
  toSpans := (h.toIsGrowing.tighten delta).toSpans
  parent_mem := h.parent_mem
  parent_earlier := by
    rw [reached_tighten]
    exact h.parent_earlier
  col_matched := h.col_matched

theorem parent_enter_of_mem (hcol : tree.cols.get col = true) :
    (tree.enter problem potentials row).parent.get col = tree.parent.get col := by
  rw [parent_enter, improves, hcol]
  rfl

/-- A row that enters is the parent of the columns that it is strictly nearer to. -/
theorem enter_cases (row : Fin size) (hcol : tree.cols.get col = false) :
    potentials.reducedCost problem row col < tree.slack.get col ∧
        (tree.enter problem potentials row).slack.get col =
          potentials.reducedCost problem row col ∧
        (tree.enter problem potentials row).parent.get col = row ∨
      ¬potentials.reducedCost problem row col < tree.slack.get col ∧
        (tree.enter problem potentials row).slack.get col = tree.slack.get col ∧
        (tree.enter problem potentials row).parent.get col = tree.parent.get col := by
  rw [slack_enter, parent_enter, improves, hcol]
  by_cases hnearer : potentials.reducedCost problem row col < tree.slack.get col
  · exact .inl ⟨hnearer, by simp [hnearer], by simp [hnearer]⟩
  · exact .inr ⟨hnearer, by simp [hnearer], by simp [hnearer]⟩

/-- A matched column joins the tree together with its row. -/
theorem IsOpen.join (h : tree.IsOpen matching root) (hconsistent : matching.Consistent)
    (hroot : matching.colOf root = none) (hcol : tree.cols.get col = false)
    (hmatched : matching.rowOf col = some row) :
    ((tree.reach col).enter problem potentials row).IsOpen matching root := by
  have hjoin : ((tree.reach col).enter problem potentials row).IsGrowing matching root :=
    h.toIsGrowing.join hconsistent hcol hmatched
  refine ⟨⟨hjoin.toSpans, ?_, ?_⟩, hjoin.col_matched⟩
  · intro other
    rw [parent_enter, rows_enter]
    split
    · rw [if_pos rfl]
    · split
      · rfl
      · exact h.parent_mem other
  · intro other hother next hnext
    rw [parent_enter_of_mem (((h.isLogged.reach hcol).col_mem_iff other).mpr hother)] at hnext
    exact h.parent_earlier_reach hroot hcol hother hnext

end Tree

namespace Search

variable [CostArithmetic α] {problem : Problem α size} {state next last : State α size}

section Open

variable (hconsistent : matching.Consistent) (hroot : matching.colOf root = none)

include hconsistent hroot

theorem isOpen_of_step (hopen : state.tree.IsOpen matching root)
    (h : Step problem matching state next) : next.tree.IsOpen matching root := by
  cases h with
  | tighten => exact hopen.tighten _
  | join hclosest _ hmatched _ =>
      exact hopen.join hconsistent hroot (Tree.outside_of_closest? hclosest) hmatched

theorem isOpen_of_steps (hopen : state.tree.IsOpen matching root)
    (h : Steps problem matching state next) : next.tree.IsOpen matching root := by
  induction h with
  | refl => exact hopen
  | tail _ hstep ih => exact isOpen_of_step hconsistent hroot ih hstep

/-- A search that arrives has led back from every column of its tree. -/
theorem alternates_of_arrives {col : Fin size} (hopen : state.tree.IsOpen matching root)
    (h : Arrives problem matching state col last) : last.tree.Alternates matching root := by
  rw [h.last_eq]
  exact hopen.reach_free hconsistent hroot (Tree.outside_of_closest? h.closest) h.free

end Open

omit [CostArithmetic α] in
theorem outside_of_outside_reach {other : Fin size}
    (hother : (state.reach col).tree.cols.get other = false) :
    state.tree.cols.get other = false := by
  have hreach := (Tree.cols_reach state.tree col other).symm.trans hother
  split at hreach
  · exact absurd hreach (by simp)
  · exact hreach

omit [CostArithmetic α] in
theorem inside_reach {other : Fin size} (hother : state.tree.cols.get other = true) :
    (state.reach col).tree.cols.get other = true := by
  refine (Tree.cols_reach state.tree col other).trans ?_
  rw [hother, ite_self]

/-- The slack and the parent of a column outside, after a column and its row have joined. -/
theorem join_cases {other : Fin size}
    (hother : (state.reach col).tree.cols.get other = false) :
    state.potentials.reducedCost problem row other < state.tree.slack.get other ∧
        ((state.reach col).enter problem row).tree.slack.get other =
          state.potentials.reducedCost problem row other ∧
        ((state.reach col).enter problem row).tree.parent.get other = row ∨
      ¬state.potentials.reducedCost problem row other < state.tree.slack.get other ∧
        ((state.reach col).enter problem row).tree.slack.get other =
          state.tree.slack.get other ∧
        ((state.reach col).enter problem row).tree.parent.get other =
          state.tree.parent.get other :=
  Tree.enter_cases row hother

/-- A cell that is matched after a search was matched before, or it has joined its column to the
tree. -/
theorem Arrives.matched_cases (h : Arrives problem matching state col last)
    (hconsistent : matching.Consistent) (hroot : matching.colOf root = none)
    (hopen : state.tree.IsOpen matching root) {path : Path size}
    (htrace : last.tree.LeadsBack matching root col path) {other : Fin size}
    (hmatched : (matching.augment path).colOf row = some other) :
    last.tree.cols.get other = true ∧ row = last.tree.parent.get other ∨
      matching.colOf row = some other := by
  have haugments : matching.Augments path := htrace.augments hroot h.free
  rcases haugments.colOf_augment_eq_some_iff.mp hmatched with hcell | ⟨-, hold⟩
  · have halternates := alternates_of_arrives hconsistent hroot hopen h
    have hcol : col ∈ last.tree.reached := by
      rw [← halternates.col_mem_iff, h.last_eq]
      exact (Tree.cols_reach state.tree col col).trans (if_pos rfl)
    have hinside := halternates.mem_reached_of_leadsBack hroot htrace hcol hcell
    exact .inl ⟨(halternates.col_mem_iff other).mpr hinside, htrace.fst_eq_parent hcell⟩
  · exact .inr hold

/-- A search from a free row finds a path, if the row lies below the ceiling and moves of the
potentials bring columns near. -/
theorem exists_run_eq_ok (hconsistent : matching.Consistent) (hroot : matching.colOf root = none)
    (hprogress : Progresses problem)
    (hbelow : ∀ col,
      CostArithmetic.belowCeiling (state.potentials.reducedCost problem root col)) :
    ∃ last path, run problem matching state root = (last, .ok path) := by
  have hopen : (state.plant problem root).tree.IsOpen matching root := Tree.isOpen_plant hbelow
  obtain ⟨last, col, hexplore⟩ := exists_explore_plant_eq_ok hconsistent hroot hprogress state
  obtain ⟨middle, hmiddle, harrives⟩ := exists_steps_of_explore hexplore
  have halternates := alternates_of_arrives hconsistent hroot
    (isOpen_of_steps hconsistent hroot hopen hmiddle) harrives
  have hcol : col ∈ last.tree.reached := by
    have hreached : last.tree.reached = middle.tree.reached ++ [col] := by
      rw [harrives.last_eq]
      exact middle.tree.reached_reach col
    rw [hreached]
    exact List.mem_append_right _ (List.mem_singleton_self col)
  obtain ⟨path, hpath⟩ := halternates.exists_leadsBack hcol
  exact ⟨last, path, run_eq_ok_iff.mpr ⟨hroot, col, hexplore, hpath⟩⟩

end Search

end Hungarian
