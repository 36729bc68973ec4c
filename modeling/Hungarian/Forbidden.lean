/-!
Pairs that must not be assigned: for each listed row, an ascending set of columns. Rows and columns
are kept in strictly ascending order, so equal contents are equal values. A row may be listed with
no column.
-/

namespace Hungarian

structure IndexSet where
  toList : List Nat
  ascending : toList.Pairwise (· < ·)
deriving DecidableEq, Repr

namespace IndexSet

def empty : IndexSet := ⟨[], .nil⟩

def insertInto (index : Nat) : List Nat → List Nat
  | [] => [index]
  | head :: tail =>
    if index < head then index :: head :: tail
    else if index = head then head :: tail
    else head :: insertInto index tail

theorem mem_insertInto {index other : Nat} {indices : List Nat} :
    other ∈ insertInto index indices ↔ other = index ∨ other ∈ indices := by
  induction indices with
  | nil => simp [insertInto]
  | cons head tail ih =>
    rw [insertInto]
    split
    · simp
    · split
      · next h => simp [h]
      · simp only [List.mem_cons, ih]
        exact or_left_comm

theorem pairwise_insertInto {index : Nat} {indices : List Nat}
    (h : indices.Pairwise (· < ·)) : (insertInto index indices).Pairwise (· < ·) := by
  induction indices with
  | nil => exact List.pairwise_singleton _ _
  | cons head tail ih =>
    have hhead := (List.pairwise_cons.mp h).1
    have htail := (List.pairwise_cons.mp h).2
    rw [insertInto]
    split
    · next hlt =>
      refine List.pairwise_cons.mpr ⟨fun other hother => ?_, h⟩
      rcases List.mem_cons.mp hother with rfl | hmem
      · exact hlt
      · exact Nat.lt_trans hlt (hhead other hmem)
    · split
      · exact h
      · next hnlt hne =>
        refine List.pairwise_cons.mpr ⟨fun other hother => ?_, ih htail⟩
        rcases mem_insertInto.mp hother with rfl | hmem
        · omega
        · exact hhead other hmem

def insert (set : IndexSet) (index : Nat) : IndexSet :=
  ⟨insertInto index set.toList, pairwise_insertInto set.ascending⟩

theorem mem_toList_insert {set : IndexSet} {index other : Nat} :
    other ∈ (set.insert index).toList ↔ other = index ∨ other ∈ set.toList :=
  mem_insertInto

def ofList (indices : List Nat) : IndexSet :=
  indices.foldl insert empty

def contains (set : IndexSet) (index : Nat) : Bool :=
  set.toList.contains index

theorem contains_iff {set : IndexSet} {index : Nat} :
    set.contains index = true ↔ index ∈ set.toList :=
  List.contains_iff_mem

def size (set : IndexSet) : Nat :=
  set.toList.length

end IndexSet

structure ForbiddenPairs where
  entries : List (Nat × IndexSet)
  ascending : entries.Pairwise fun first second => first.1 < second.1
deriving DecidableEq, Repr

namespace ForbiddenPairs

def empty : ForbiddenPairs := ⟨[], .nil⟩

/-- The entries with the columns of one row changed; an unlisted row is listed first, with no
columns. -/
def changeEntry (row : Nat) (change : IndexSet → IndexSet) :
    List (Nat × IndexSet) → List (Nat × IndexSet)
  | [] => [(row, change .empty)]
  | (head, columns) :: tail =>
    if row < head then (row, change .empty) :: (head, columns) :: tail
    else if row = head then (head, change columns) :: tail
    else (head, columns) :: changeEntry row change tail

theorem fst_of_mem_changeEntry {row : Nat} {change : IndexSet → IndexSet}
    {entries : List (Nat × IndexSet)} {entry : Nat × IndexSet}
    (h : entry ∈ changeEntry row change entries) :
    entry.1 = row ∨ ∃ old ∈ entries, entry.1 = old.1 := by
  induction entries with
  | nil => exact .inl (by simp_all [changeEntry])
  | cons head tail ih =>
    rw [changeEntry] at h
    split at h
    · rcases List.mem_cons.mp h with rfl | hmem
      · exact .inl rfl
      · exact .inr ⟨entry, hmem, rfl⟩
    · split at h
      · rcases List.mem_cons.mp h with rfl | hmem
        · exact .inr ⟨head, List.mem_cons_self, rfl⟩
        · exact .inr ⟨entry, List.mem_cons_of_mem _ hmem, rfl⟩
      · rcases List.mem_cons.mp h with rfl | hmem
        · exact .inr ⟨head, List.mem_cons_self, rfl⟩
        · rcases ih hmem with hrow | ⟨old, hold, hfst⟩
          · exact .inl hrow
          · exact .inr ⟨old, List.mem_cons_of_mem _ hold, hfst⟩

theorem pairwise_changeEntry {row : Nat} {change : IndexSet → IndexSet}
    {entries : List (Nat × IndexSet)}
    (h : entries.Pairwise fun first second => first.1 < second.1) :
    (changeEntry row change entries).Pairwise fun first second => first.1 < second.1 := by
  induction entries with
  | nil => exact List.pairwise_singleton _ _
  | cons head tail ih =>
    have hhead := (List.pairwise_cons.mp h).1
    have htail := (List.pairwise_cons.mp h).2
    rw [changeEntry]
    split
    · next hlt =>
      refine List.pairwise_cons.mpr ⟨fun other hother => ?_, h⟩
      rcases List.mem_cons.mp hother with rfl | hmem
      · exact hlt
      · exact Nat.lt_trans hlt (hhead other hmem)
    · split
      · exact List.pairwise_cons.mpr ⟨hhead, htail⟩
      · next hnlt hne =>
        refine List.pairwise_cons.mpr ⟨fun other hother => ?_, ih htail⟩
        rcases fst_of_mem_changeEntry hother with hrow | ⟨old, hold, hfst⟩
        · rw [hrow]
          show head.1 < row
          omega
        · rw [hfst]
          exact hhead old hold

def change (pairs : ForbiddenPairs) (row : Nat) (change : IndexSet → IndexSet) :
    ForbiddenPairs :=
  ⟨changeEntry row change pairs.entries, pairwise_changeEntry pairs.ascending⟩

def insert (pairs : ForbiddenPairs) (row col : Nat) : ForbiddenPairs :=
  pairs.change row (·.insert col)

def assign (pairs : ForbiddenPairs) (row : Nat) (columns : IndexSet) : ForbiddenPairs :=
  pairs.change row fun _ => columns

/-- The columns of each row of a list, the last ones for a row that is repeated. -/
def ofList (rows : List (Nat × IndexSet)) : ForbiddenPairs :=
  rows.foldl (fun pairs row => pairs.assign row.1 row.2) empty

def columns (pairs : ForbiddenPairs) (row : Nat) : IndexSet :=
  (pairs.entries.lookup row).getD .empty

theorem lookup_cons (row : Nat) (head : Nat × IndexSet) (tail : List (Nat × IndexSet)) :
    (head :: tail).lookup row = if row = head.1 then some head.2 else tail.lookup row := by
  rw [List.lookup_cons]
  by_cases h : row = head.1
  · rw [if_pos h, beq_iff_eq.mpr h]
  · rw [if_neg h, beq_false_of_ne h]

theorem lookup_eq_none_of_lt {row : Nat} {entries : List (Nat × IndexSet)}
    (h : ∀ entry ∈ entries, row < entry.1) : entries.lookup row = none := by
  induction entries with
  | nil => rfl
  | cons head tail ih =>
    rw [lookup_cons, if_neg (Nat.ne_of_lt (h head List.mem_cons_self))]
    exact ih fun entry hentry => h entry (List.mem_cons_of_mem _ hentry)

theorem lookup_changeEntry {row other : Nat} {change : IndexSet → IndexSet}
    {entries : List (Nat × IndexSet)}
    (h : entries.Pairwise fun first second => first.1 < second.1) :
    (changeEntry row change entries).lookup other =
      if other = row then some (change ((entries.lookup row).getD .empty))
      else entries.lookup other := by
  induction entries with
  | nil => exact lookup_cons other (row, change .empty) []
  | cons head tail ih =>
    have hhead := (List.pairwise_cons.mp h).1
    have htail := ih (List.pairwise_cons.mp h).2
    rw [changeEntry]
    split
    · next hlt =>
      have hnone : (head :: tail).lookup row = none := by
        refine lookup_eq_none_of_lt fun entry hentry => ?_
        rcases List.mem_cons.mp hentry with rfl | hmem
        · exact hlt
        · exact Nat.lt_trans hlt (hhead entry hmem)
      rw [lookup_cons, hnone]
      rfl
    · split
      · next heq =>
        rw [lookup_cons, lookup_cons, lookup_cons, if_pos heq, ← heq]
        split <;> rfl
      · next hne =>
        rw [lookup_cons, htail, lookup_cons other, lookup_cons row, if_neg hne]
        grind

/-- Changing one row changes its columns and no others. -/
theorem columns_change (pairs : ForbiddenPairs) (row other : Nat)
    (change : IndexSet → IndexSet) :
    (pairs.change row change).columns other =
      if other = row then change (pairs.columns row) else pairs.columns other := by
  unfold columns ForbiddenPairs.change
  rw [lookup_changeEntry pairs.ascending]
  split
  · rfl
  · rfl

def contains (pairs : ForbiddenPairs) (row col : Nat) : Bool :=
  (pairs.columns row).contains col

def toList (pairs : ForbiddenPairs) : List (Nat × Nat) :=
  pairs.entries.flatMap fun entry => entry.2.toList.map fun col => (entry.1, col)

theorem mem_columns {pairs : ForbiddenPairs} {row col : Nat} :
    col ∈ (pairs.columns row).toList ↔
      ∃ columns, (row, columns) ∈ pairs.entries ∧ col ∈ columns.toList := by
  unfold columns
  have hascending := pairs.ascending
  generalize pairs.entries = entries at hascending ⊢
  induction entries with
  | nil => simp [IndexSet.empty]
  | cons head tail ih =>
    have hhead := (List.pairwise_cons.mp hascending).1
    have htail := ih (List.pairwise_cons.mp hascending).2
    rw [lookup_cons]
    simp only [List.mem_cons]
    split
    · next heq =>
      have hnot : ∀ columns, (row, columns) ∉ tail := fun columns hmem =>
        absurd (hhead _ hmem) (by simp [heq])
      grind
    · grind

theorem mem_toList {pairs : ForbiddenPairs} {row col : Nat} :
    (row, col) ∈ pairs.toList ↔ col ∈ (pairs.columns row).toList := by
  rw [mem_columns]
  simp only [toList, List.mem_flatMap, List.mem_map, Prod.mk.injEq]
  constructor
  · rintro ⟨entry, hentry, other, hother, rfl, rfl⟩
    exact ⟨entry.2, hentry, hother⟩
  · rintro ⟨columns, hentry, hcol⟩
    exact ⟨(row, columns), hentry, col, hcol, rfl, rfl⟩

theorem contains_iff {pairs : ForbiddenPairs} {row col : Nat} :
    pairs.contains row col = true ↔ (row, col) ∈ pairs.toList :=
  IndexSet.contains_iff.trans mem_toList.symm

def count (pairs : ForbiddenPairs) : Nat :=
  pairs.entries.foldl (fun sum entry => sum + entry.2.size) 0

end ForbiddenPairs

end Hungarian
