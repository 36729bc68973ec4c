import Hungarian.Assignment
import Hungarian.Proofs.Matching.Perfect
import Hungarian.Proofs.Problem.Selection

/-!
# Reading an assignment off a permutation

Every field of an extracted assignment, in terms of the permutation that the matching realizes.
-/

namespace Hungarian

section Lists

variable {ι : Type}

theorem map_find?_eq_some_iff {γ : Type} {key : ι → Nat} {value : ι → γ} {cells : List ι}
    (hunique : ∀ first ∈ cells, ∀ second ∈ cells, key first = key second →
      value first = value second) {index : Nat} {found : γ} :
    (cells.find? fun cell => key cell == index).map value = some found ↔
      ∃ cell ∈ cells, key cell = index ∧ value cell = found := by
  rw [Option.map_eq_some_iff]
  constructor
  · rintro ⟨cell, hfind, hvalue⟩
    exact ⟨cell, List.mem_of_find?_eq_some hfind, by simpa using List.find?_some hfind, hvalue⟩
  · rintro ⟨cell, hcell, hkey, hvalue⟩
    have hsome : (cells.find? fun cell => key cell == index).isSome := by
      rw [List.find?_isSome]
      exact ⟨cell, hcell, by simpa using hkey⟩
    obtain ⟨first, hfirst⟩ := Option.isSome_iff_exists.mp hsome
    have hkeyFirst : key first = index := by simpa using List.find?_some hfirst
    refine ⟨first, hfirst, ?_⟩
    rw [hunique first (List.mem_of_find?_eq_some hfirst) cell hcell (hkeyFirst.trans hkey.symm),
      hvalue]

theorem getElem?_map_range {count index : Nat} {entry : Nat → ι} {found : ι} :
    ((List.range count).map entry)[index]? = some found ↔ index < count ∧ entry index = found := by
  rw [List.getElem?_map, Option.map_eq_some_iff]
  constructor
  · rintro ⟨other, hother, hentry⟩
    rw [List.getElem?_eq_some_iff] at hother
    obtain ⟨hlt, hget⟩ := hother
    rw [List.getElem_range] at hget
    rw [List.length_range] at hlt
    exact ⟨hlt, hget ▸ hentry⟩
  · rintro ⟨hlt, hentry⟩
    exact ⟨index, List.getElem?_range hlt, hentry⟩

/-- An index of an answer whose entry is no column, or no row, has an empty entry. -/
theorem getElem?_eq_some_none {entries : List (Option Nat)} {index : Nat}
    (hlt : index < entries.length) (h : ∀ found, entries[index]? ≠ some (some found)) :
    entries[index]? = some none := by
  rw [List.getElem?_eq_getElem hlt] at h ⊢
  cases hentry : entries[index] with
  | none => rfl
  | some found => exact absurd (by rw [hentry]) (h found)

end Lists

namespace Assignment

variable {α : Type} {row col : Nat}

theorem mem_pairs_iff {assignment : Assignment α} :
    (row, col) ∈ assignment.pairs ↔ assignment.cols[row]? = some (some col) := by
  simp only [pairs, List.mem_filterMap, Prod.exists, Option.map_eq_some_iff, Prod.mk.injEq]
  constructor
  · rintro ⟨col?, other, hmem, found, rfl, rfl, rfl⟩
    exact List.mem_zipIdx_iff_getElem?.mp hmem
  · intro h
    exact ⟨some col, row, List.mem_zipIdx_iff_getElem?.mpr h, col, rfl, rfl, rfl⟩

theorem length_pairs (assignment : Assignment α) :
    assignment.pairs.length = assignment.assignedCount := by
  rw [pairs, List.length_filterMap_eq_countP, assignedCount]
  conv_rhs => rw [← List.zipIdx_map_fst 0 assignment.cols, List.countP_map]
  apply List.countP_congr
  intro entry _
  simp

theorem nodup_pairs (assignment : Assignment α) : assignment.pairs.Nodup := by
  have hindices : assignment.cols.zipIdx.Pairwise fun first second => first.2 < second.2 := by
    rw [← List.pairwise_map (f := Prod.snd), List.zipIdx_map_snd]
    exact List.pairwise_lt_range'
  refine List.Pairwise.filterMap _ ?_ hindices
  rintro ⟨col?, row⟩ ⟨other?, other⟩ hlt first hfirst second hsecond rfl
  obtain ⟨col, -, rfl⟩ := Option.map_eq_some_iff.mp hfirst
  obtain ⟨col', -, heq⟩ := Option.map_eq_some_iff.mp hsecond
  exact absurd (congrArg Prod.fst heq) (Nat.ne_of_gt hlt)

end Assignment

structure Problem.SameLayout {α β : Type} {size : Nat} (problem : Problem α size)
    (other : Problem β size) : Prop where
  rows_eq : problem.rows = other.rows
  cols_eq : problem.cols = other.cols
  forbidden_eq : problem.forbidden = other.forbidden

section Layout

variable {α β : Type} {size : Nat} {problem : Problem α size} {other : Problem β size}
  {solution : Solution α size} {solution' : Solution β size}
  (h : problem.SameLayout other) (hmatching : solution.matching = solution'.matching)

include h

theorem Problem.SameLayout.isAllowed_eq : problem.isAllowed = other.isAllowed := by
  funext row col
  rw [isAllowed, isAllowed, isPadding, isPadding, isForbidden, isForbidden, h.rows_eq, h.cols_eq,
    h.forbidden_eq]

theorem Problem.SameLayout.keptRows_eq (σ : Equiv.Perm (Fin size)) :
    problem.keptRows σ = other.keptRows σ := by
  rw [keptRows, keptRows, h.isAllowed_eq]

include hmatching

theorem Solution.kept_eq_of_sameLayout : solution.kept problem = solution'.kept other := by
  rw [kept, kept, hmatching, h.isAllowed_eq]

theorem Solution.stripped_eq_of_sameLayout :
    solution.stripped problem = solution'.stripped other := by
  unfold stripped Problem.isPadding Problem.isForbidden
  rw [hmatching, h.rows_eq, h.cols_eq, h.forbidden_eq]

variable [CostArithmetic α] [CostArithmetic β] (cost : α) (cost' : β)

theorem Solution.cols_eq_of_sameLayout :
    (solution.toAssignment problem cost).cols = (solution'.toAssignment other cost').cols := by
  rw [toAssignment, toAssignment, kept_eq_of_sameLayout h hmatching, h.rows_eq]

theorem Solution.rows_eq_of_sameLayout :
    (solution.toAssignment problem cost).rows = (solution'.toAssignment other cost').rows := by
  rw [toAssignment, toAssignment, kept_eq_of_sameLayout h hmatching, h.cols_eq]

theorem Solution.strippedPairs_eq_of_sameLayout :
    (solution.toAssignment problem cost).stripped =
      (solution'.toAssignment other cost').stripped := by
  rw [toAssignment, toAssignment, stripped_eq_of_sameLayout h hmatching]

end Layout

namespace Solution

variable {α : Type} {size : Nat} {problem : Problem α size} {solution : Solution α size}
  {σ : Equiv.Perm (Fin size)} {cell : Fin size × Fin size} {row col : Nat}

section Cells

variable (h : solution.matching.Realizes σ)

include h

theorem mem_kept_iff : cell ∈ solution.kept problem ↔
    σ cell.1 = cell.2 ∧ problem.isAllowed cell.1 cell.2 := by
  rw [kept, List.mem_filter, h.mem_pairs_iff]

/-- Stripped are the matched cells of the caller's that are forbidden. -/
theorem mem_stripped_iff : cell ∈ solution.stripped problem ↔
    σ cell.1 = cell.2 ∧ problem.isPadding cell.1 cell.2 = false ∧
      problem.isForbidden cell.1 cell.2 := by
  rw [stripped, List.mem_filter, h.mem_pairs_iff]
  simp

theorem length_stripped : (solution.stripped problem).length = (problem.strippedRows σ).card := by
  rw [stripped, h.pairs_eq, List.filter_map, List.length_map, Problem.strippedRows,
    Finset.card_def, Matching.val_filter_univ, Multiset.coe_card]
  rfl

theorem pairwise_stripped : (solution.stripped problem).Pairwise fun first second =>
    first.1 < second.1 ∧ first.2 ≠ second.2 := by
  rw [stripped, h.pairs_eq]
  refine List.Pairwise.filter _ (List.pairwise_map.mpr ?_)
  refine (List.pairwise_lt_finRange size).imp fun hlt => ⟨hlt, fun heq => ?_⟩
  exact absurd (σ.injective heq) hlt.ne

end Cells

variable [CostArithmetic α] {matrix : CostMatrix α} {assignment : Assignment α} {cost : α}

theorem length_cols_toAssignment :
    (solution.toAssignment problem cost).cols.length = problem.rows := by
  simp [toAssignment]

theorem length_rows_toAssignment :
    (solution.toAssignment problem cost).rows.length = problem.cols := by
  simp [toAssignment]

/-- The pairs of an answer are the kept cells, whatever the matching. -/
theorem mem_pairs_toAssignment : (row, col) ∈ (solution.toAssignment problem cost).pairs ↔
    ∃ cell ∈ solution.kept problem, cell.1.val = row ∧ cell.2.val = col := by
  rw [Assignment.mem_pairs_iff, toAssignment, getElem?_map_range, map_find?_eq_some_iff]
  · refine and_iff_right_of_imp ?_
    rintro ⟨cell, hcell, rfl, rfl⟩
    have hallowed := Problem.isAllowed_iff.mp (List.mem_filter.mp hcell).2
    exact (Problem.isPadding_eq_false_iff.mp hallowed.1).1
  · intro first hfirst second hsecond heq
    have hcol := Matching.mem_pairs.mp (List.mem_filter.mp hfirst).1
    rw [Fin.ext heq, Matching.mem_pairs.mp (List.mem_filter.mp hsecond).1] at hcol
    rw [Option.some.inj hcol]

section Fields

variable (h : solution.matching.Realizes σ)

include h

/-- The columns of an answer are those of the kept cells. -/
theorem getElem?_cols_toAssignment :
    (solution.toAssignment problem cost).cols[row]? = some (some col) ↔
      ∃ index, index.val = row ∧ (σ index).val = col ∧ problem.isAllowed index (σ index) := by
  rw [← Assignment.mem_pairs_iff, mem_pairs_toAssignment]
  constructor
  · rintro ⟨cell, hcell, rfl, rfl⟩
    obtain ⟨himage, hallowed⟩ := (mem_kept_iff h).mp hcell
    exact ⟨cell.1, rfl, congrArg Fin.val himage, himage ▸ hallowed⟩
  · rintro ⟨index, rfl, rfl, hallowed⟩
    exact ⟨(index, σ index), (mem_kept_iff h).mpr ⟨rfl, hallowed⟩, rfl, rfl⟩

theorem getElem?_rows_toAssignment :
    (solution.toAssignment problem cost).rows[col]? = some (some row) ↔
      ∃ index, index.val = row ∧ (σ index).val = col ∧ problem.isAllowed index (σ index) := by
  rw [toAssignment, getElem?_map_range, map_find?_eq_some_iff]
  · constructor
    · rintro ⟨-, cell, hcell, rfl, rfl⟩
      obtain ⟨himage, hallowed⟩ := (mem_kept_iff h).mp (List.mem_reverse.mp hcell)
      exact ⟨cell.1, rfl, congrArg Fin.val himage, himage ▸ hallowed⟩
    · rintro ⟨index, rfl, rfl, hallowed⟩
      have hinside := Problem.isPadding_eq_false_iff.mp (Problem.isAllowed_iff.mp hallowed).1
      have hkept : (index, σ index) ∈ solution.kept problem :=
        (mem_kept_iff h).mpr ⟨rfl, hallowed⟩
      exact ⟨hinside.2, (index, σ index), List.mem_reverse.mpr hkept, rfl, rfl⟩
  · intro first hfirst second hsecond heq
    have hfirst' := ((mem_kept_iff h).mp (List.mem_reverse.mp hfirst)).1
    have hsecond' := ((mem_kept_iff h).mp (List.mem_reverse.mp hsecond)).1
    rw [σ.injective (hfirst'.trans ((Fin.ext heq).trans hsecond'.symm))]

theorem toFinset_pairs_toAssignment :
    (solution.toAssignment problem cost).pairs.toFinset = problem.keptCells σ := by
  ext ⟨row, col⟩
  rw [List.mem_toFinset, Assignment.mem_pairs_iff, getElem?_cols_toAssignment h,
    Problem.mem_keptCells_iff]

theorem assignedCount_toAssignment :
    (solution.toAssignment problem cost).assignedCount = (problem.keptRows σ).card := by
  rw [← Assignment.length_pairs, ← List.toFinset_card_of_nodup (Assignment.nodup_pairs _),
    toFinset_pairs_toAssignment h, Problem.card_keptCells]

end Fields

end Solution

end Hungarian
