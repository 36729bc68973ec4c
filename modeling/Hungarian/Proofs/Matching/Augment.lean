import Mathlib.Data.Fintype.Card
import Mathlib.Data.List.Chain
import Hungarian.Matching

/-!
# Augmenting a matching

`Matching.augment` writes the cells of a path and clears nothing, so a matching stays consistent
only because every old partner of a row or a column of the path lies on the path itself. `Augments`
is the condition on the path, and the three results are that consistency is kept, that one more row
is matched, and that the new partners are the path's and, off the path, the old ones.
-/

namespace Hungarian.Matching

variable {size : Nat} {matching : Matching size} {path : Path size} {row col : Fin size}
  {cell : Fin size × Fin size}

/-- A path from a free row to a free column, whose cells are linked by matched cells. -/
structure Augments (matching : Matching size) (path : Path size) : Prop where
  ne_nil : path ≠ []
  root_free : ∀ cell ∈ path.head?, matching.colOf cell.1 = none
  end_free : ∀ cell ∈ path.getLast?, matching.rowOf cell.2 = none
  linked : path.IsChain fun cell next => matching.colOf next.1 = some cell.2
  rows_nodup : (path.map Prod.fst).Nodup
  cols_nodup : (path.map Prod.snd).Nodup

theorem Consistent.row_unique (h : matching.Consistent) {other : Fin size}
    (hrow : matching.colOf row = some col) (hother : matching.colOf other = some col) :
    row = other :=
  Option.some.inj (((h row col).mp hrow).symm.trans ((h other col).mp hother))

theorem colOf_augment_of_notMem (h : row ∉ path.map Prod.fst) :
    (matching.augment path).colOf row = matching.colOf row := by
  induction path generalizing matching with
  | nil => rfl
  | cons cell path ih =>
      rw [List.map_cons, List.mem_cons, not_or] at h
      rw [augment_cons, ih h.2, colOf_assign, if_neg h.1]

theorem rowOf_augment_of_notMem (h : col ∉ path.map Prod.snd) :
    (matching.augment path).rowOf col = matching.rowOf col := by
  induction path generalizing matching with
  | nil => rfl
  | cons cell path ih =>
      rw [List.map_cons, List.mem_cons, not_or] at h
      rw [augment_cons, ih h.2, rowOf_assign, if_neg h.1]

theorem colOf_augment_of_mem (hnodup : (path.map Prod.fst).Nodup) (hcell : cell ∈ path) :
    (matching.augment path).colOf cell.1 = some cell.2 := by
  induction path generalizing matching with
  | nil => exact absurd hcell List.not_mem_nil
  | cons first path ih =>
      rw [List.map_cons, List.nodup_cons] at hnodup
      rw [augment_cons]
      rcases List.mem_cons.mp hcell with heq | hmem
      · subst heq
        rw [colOf_augment_of_notMem hnodup.1, colOf_assign, if_pos rfl]
      · exact ih hnodup.2 hmem

theorem rowOf_augment_of_mem (hnodup : (path.map Prod.snd).Nodup) (hcell : cell ∈ path) :
    (matching.augment path).rowOf cell.2 = some cell.1 := by
  induction path generalizing matching with
  | nil => exact absurd hcell List.not_mem_nil
  | cons first path ih =>
      rw [List.map_cons, List.nodup_cons] at hnodup
      rw [augment_cons]
      rcases List.mem_cons.mp hcell with heq | hmem
      · subst heq
        rw [rowOf_augment_of_notMem hnodup.1, rowOf_assign, if_pos rfl]
      · exact ih hnodup.2 hmem

namespace Augments

variable (h : matching.Augments path)

include h

/-- The old column of a row of the path lies on the path, on the cell before. -/
theorem mem_cols_of_colOf (hcell : cell ∈ path) (hcol : matching.colOf cell.1 = some col) :
    col ∈ path.map Prod.snd := by
  obtain ⟨before, after, rfl⟩ := List.append_of_mem hcell
  rcases List.eq_nil_or_concat before with rfl | ⟨front, previous, rfl⟩
  · have hfree := h.root_free cell rfl
    rw [hfree] at hcol
    exact absurd hcol (by simp)
  · have hlinked := h.linked
    rw [List.concat_eq_append, List.append_assoc, List.singleton_append,
      List.isChain_append_cons_cons] at hlinked
    have hprevious : matching.colOf cell.1 = some previous.2 := hlinked.2.1
    have heq : col = previous.2 := Option.some.inj (hcol.symm.trans hprevious)
    simp [heq]

/-- The old row of a column of the path lies on the path, on the cell after. -/
theorem mem_rows_of_rowOf (hconsistent : matching.Consistent) (hcell : cell ∈ path)
    (hrow : matching.rowOf cell.2 = some row) : row ∈ path.map Prod.fst := by
  obtain ⟨before, after, rfl⟩ := List.append_of_mem hcell
  cases after with
  | nil =>
      have hfree := h.end_free cell (by simp)
      rw [hfree] at hrow
      exact absurd hrow (by simp)
  | cons next after =>
      have hlinked := h.linked
      rw [List.isChain_append_cons_cons] at hlinked
      have hnext : matching.rowOf cell.2 = some next.1 :=
        (hconsistent next.1 cell.2).mp hlinked.2.1
      have heq : row = next.1 := Option.some.inj (hrow.symm.trans hnext)
      simp [heq]

/-- Rows of the path are matched anew and others stay as they are. -/
theorem colOf_augment_eq_some_iff :
    (matching.augment path).colOf row = some col ↔
      (row, col) ∈ path ∨ row ∉ path.map Prod.fst ∧ matching.colOf row = some col := by
  by_cases hrow : row ∈ path.map Prod.fst
  · obtain ⟨cell, hcell, rfl⟩ := List.mem_map.mp hrow
    rw [colOf_augment_of_mem h.rows_nodup hcell]
    constructor
    · intro heq
      exact .inl (Option.some.inj heq ▸ hcell)
    · rintro (hmem | ⟨hnot, -⟩)
      · have hnew : (matching.augment path).colOf cell.1 = some col :=
          colOf_augment_of_mem h.rows_nodup hmem
        rw [← hnew, colOf_augment_of_mem h.rows_nodup hcell]
      · exact absurd hrow hnot
  · have hnot : (row, col) ∉ path := fun hmem => hrow (List.mem_map_of_mem hmem)
    simp [colOf_augment_of_notMem hrow, hrow, hnot]

theorem rowOf_augment_eq_some_iff :
    (matching.augment path).rowOf col = some row ↔
      (row, col) ∈ path ∨ col ∉ path.map Prod.snd ∧ matching.rowOf col = some row := by
  by_cases hcol : col ∈ path.map Prod.snd
  · obtain ⟨cell, hcell, rfl⟩ := List.mem_map.mp hcol
    rw [rowOf_augment_of_mem h.cols_nodup hcell]
    constructor
    · intro heq
      exact .inl (Option.some.inj heq ▸ hcell)
    · rintro (hmem | ⟨hnot, -⟩)
      · have hnew : (matching.augment path).rowOf cell.2 = some row :=
          rowOf_augment_of_mem h.cols_nodup hmem
        rw [← hnew, rowOf_augment_of_mem h.cols_nodup hcell]
      · exact absurd hcol hnot
  · have hnot : (row, col) ∉ path := fun hmem => hcol (List.mem_map_of_mem hmem)
    simp [rowOf_augment_of_notMem hcol, hcol, hnot]

/-- A column that is free afterwards was free before. -/
theorem rowOf_eq_none_of_augment (hfree : (matching.augment path).rowOf col = none) :
    matching.rowOf col = none := by
  by_cases hcol : col ∈ path.map Prod.snd
  · obtain ⟨cell, hcell, rfl⟩ := List.mem_map.mp hcol
    rw [rowOf_augment_of_mem h.cols_nodup hcell] at hfree
    exact absurd hfree (by simp)
  · rwa [rowOf_augment_of_notMem hcol] at hfree

/-- No old partner survives on one side only: each lies on the path and is overwritten. -/
theorem consistent_augment (hconsistent : matching.Consistent) :
    (matching.augment path).Consistent := by
  intro row col
  rw [h.colOf_augment_eq_some_iff, h.rowOf_augment_eq_some_iff]
  apply or_congr_right
  constructor
  · rintro ⟨hrow, hold⟩
    have hback := (hconsistent row col).mp hold
    refine ⟨fun hcol => ?_, hback⟩
    obtain ⟨cell, hcell, rfl⟩ := List.mem_map.mp hcol
    exact hrow (h.mem_rows_of_rowOf hconsistent hcell hback)
  · rintro ⟨hcol, hold⟩
    have hback := (hconsistent row col).mpr hold
    refine ⟨fun hrow => ?_, hback⟩
    obtain ⟨cell, hcell, rfl⟩ := List.mem_map.mp hrow
    exact hcol (h.mem_cols_of_colOf hcell hback)

/-- Of the rows of the path only the first was free. -/
theorem isSome_colOf_augment_iff {root : Fin size} (hroot : path.head?.map Prod.fst = some root) :
    ((matching.augment path).colOf row).isSome ↔ row = root ∨ (matching.colOf row).isSome := by
  obtain ⟨first, rest, rfl⟩ := List.exists_cons_of_ne_nil h.ne_nil
  obtain rfl : first.1 = root := by simpa using hroot
  by_cases hrow : row ∈ (first :: rest).map Prod.fst
  · obtain ⟨cell, hcell, rfl⟩ := List.mem_map.mp hrow
    rw [colOf_augment_of_mem h.rows_nodup hcell]
    simp only [Option.isSome_some, true_iff]
    rcases List.mem_cons.mp hcell with heq | hmem
    · exact .inl (congrArg Prod.fst heq)
    · obtain ⟨before, after, rfl⟩ := List.append_of_mem hmem
      obtain ⟨front, previous, hsplit⟩ := List.eq_nil_or_concat (first :: before) |>.resolve_left
        (List.cons_ne_nil first before)
      have hlinked := h.linked
      rw [← List.cons_append, hsplit, List.concat_eq_append, List.append_assoc,
        List.singleton_append, List.isChain_append_cons_cons] at hlinked
      exact .inr (by simp [hlinked.2.1])
  · have hne : row ≠ first.1 := fun heq => hrow (by simp [heq])
    rw [colOf_augment_of_notMem hrow, or_iff_right hne]

/-- Of the columns of the path only the last was free. -/
theorem isSome_rowOf_augment_iff (hconsistent : matching.Consistent) {target : Fin size}
    (htarget : path.getLast?.map Prod.snd = some target) :
    ((matching.augment path).rowOf col).isSome ↔ col = target ∨ (matching.rowOf col).isSome := by
  obtain ⟨front, last, rfl⟩ := List.eq_nil_or_concat' path |>.resolve_left h.ne_nil
  obtain rfl : last.2 = target := by simpa using htarget
  by_cases hcol : col ∈ (front ++ [last]).map Prod.snd
  · obtain ⟨cell, hcell, rfl⟩ := List.mem_map.mp hcol
    rw [rowOf_augment_of_mem h.cols_nodup hcell]
    simp only [Option.isSome_some, true_iff]
    rcases List.mem_append.mp hcell with hmem | hlast
    · -- the cell after it links the column to its old row
      obtain ⟨before, after, rfl⟩ := List.append_of_mem hmem
      obtain ⟨next, rest, hsplit⟩ := List.exists_cons_of_ne_nil
        (List.append_ne_nil_of_right_ne_nil after (List.cons_ne_nil last []))
      have hlinked := h.linked
      rw [List.append_assoc, List.cons_append, hsplit, List.isChain_append_cons_cons] at hlinked
      have hnext : matching.rowOf cell.2 = some next.1 :=
        (hconsistent next.1 cell.2).mp hlinked.2.1
      exact .inr (by simp [hnext])
    · exact .inl (congrArg Prod.snd (List.mem_singleton.mp hlast))
  · have hne : col ≠ last.2 := fun heq => hcol (by simp [heq])
    rw [rowOf_augment_of_notMem hcol, or_iff_right hne]

end Augments

theorem val_filter_univ (part : Fin size → Bool) :
    (Finset.univ.filter fun index => part index = true).val =
      ((List.finRange size).filter part : Multiset (Fin size)) := by
  rw [Finset.filter_val, Fin.univ_def, Multiset.filter_coe]
  simp

theorem count_eq_card :
    matching.count = (Finset.univ.filter fun row => (matching.colOf row).isSome).card := by
  rw [count, List.countP_eq_length_filter, Finset.card_def, val_filter_univ, Multiset.coe_card]

theorem Augments.count_augment (h : matching.Augments path) :
    (matching.augment path).count = matching.count + 1 := by
  obtain ⟨first, rest, hpath⟩ := List.exists_cons_of_ne_nil h.ne_nil
  have hhead : path.head?.map Prod.fst = some first.1 := by rw [hpath]; rfl
  have hfree : matching.colOf first.1 = none := h.root_free first (by rw [hpath]; rfl)
  have hrows : (Finset.univ.filter fun row => ((matching.augment path).colOf row).isSome) =
      insert first.1 (Finset.univ.filter fun row => (matching.colOf row).isSome) := by
    ext row
    simp [h.isSome_colOf_augment_iff hhead]
  rw [count_eq_card, count_eq_card, hrows, Finset.card_insert_of_notMem (by simp [hfree])]

/-- **One row and one column more.** A path from a free row to a free column keeps a consistent
matching consistent and adds one cell to it: its first row and its last column are matched now, no
row and no column is given up, its cells are matched on both sides, and whatever lies off it keeps
its partner. -/
theorem augment_adds_ends (hconsistent : matching.Consistent) (h : matching.Augments path) :
    (matching.augment path).Consistent ∧
    (matching.augment path).count = matching.count + 1 ∧
    (∃ first last, path.head? = some first ∧ path.getLast? = some last ∧
      matching.colOf first.1 = none ∧ matching.rowOf last.2 = none ∧
      (∀ row, ((matching.augment path).colOf row).isSome ↔
        row = first.1 ∨ (matching.colOf row).isSome) ∧
      ∀ col, ((matching.augment path).rowOf col).isSome ↔
        col = last.2 ∨ (matching.rowOf col).isSome) ∧
    (∀ cell ∈ path, (matching.augment path).colOf cell.1 = some cell.2 ∧
      (matching.augment path).rowOf cell.2 = some cell.1) ∧
    (∀ row, row ∉ path.map Prod.fst →
      (matching.augment path).colOf row = matching.colOf row) ∧
    ∀ col, col ∉ path.map Prod.snd →
      (matching.augment path).rowOf col = matching.rowOf col := by
  have hfirst := List.head?_eq_some_head h.ne_nil
  have hlast := List.getLast?_eq_some_getLast h.ne_nil
  refine ⟨h.consistent_augment hconsistent, h.count_augment, ?_, fun cell hcell => ?_,
    fun row hrow => colOf_augment_of_notMem hrow, fun col hcol => rowOf_augment_of_notMem hcol⟩
  · refine ⟨_, _, hfirst, hlast, h.root_free _ hfirst, h.end_free _ hlast, fun row => ?_,
      fun col => ?_⟩
    · exact h.isSome_colOf_augment_iff (by rw [hfirst, Option.map_some])
    · exact h.isSome_rowOf_augment_iff hconsistent (by rw [hlast, Option.map_some])
  · exact ⟨colOf_augment_of_mem h.rows_nodup hcell, rowOf_augment_of_mem h.cols_nodup hcell⟩

def gappedMatching : Matching 4 where
  cols := .ofFn fun row => if row.val = 2 then none else some row
  rows := .ofFn fun col => if col.val = 2 then none else some col

/-- The free row drives the first two rows one column on, and the last row stays where it is. -/
theorem augment_adds_ends_gapped : gappedMatching.Consistent ∧
    gappedMatching.Augments [(2, 0), (0, 1), (1, 2)] ∧
    (gappedMatching.augment [(2, 0), (0, 1), (1, 2)]).pairs = [(0, 1), (1, 2), (2, 0), (3, 3)] ∧
    (gappedMatching.augment [(2, 0), (0, 1), (1, 2)]).Consistent ∧
    (gappedMatching.augment [(2, 0), (0, 1), (1, 2)]).count = gappedMatching.count + 1 := by
  have hconsistent : gappedMatching.Consistent := by
    unfold Consistent
    decide
  have haugments : gappedMatching.Augments [(2, 0), (0, 1), (1, 2)] := by
    constructor <;> decide
  have hadds := augment_adds_ends hconsistent haugments
  exact ⟨hconsistent, haugments, by decide, hadds.1, hadds.2.1⟩

end Hungarian.Matching
