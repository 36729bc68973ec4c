import Hungarian.Matching
import Hungarian.Proofs.Flat.Access

/-!
# Matchings in flat arrays

A matching as two arrays of indices. What an entry of one array names is an index of the other, so
that reading along a path never leaves them.
-/

namespace Hungarian

namespace Flat

variable {α : Type} {size : Nat}

def indices (cell : Fin size × Fin size) : Nat × Nat :=
  (cell.1, cell.2)

def number? (index : Option (Fin size)) : Option Nat :=
  index.map Fin.val

def numbers {count : Nat} (entries : Vector (Option (Fin size)) count) : Array (Option Nat) :=
  (entries.map number?).toArray

@[simp]
theorem read_numbers (entries : Vector (Option (Fin size)) size) (index : Fin size) :
    (read (numbers entries) index : Checked α (Option Nat)) =
      pure (number? (entries.get index)) := by
  rw [numbers, read_toArray, get_map]

@[simp]
theorem write_numbers (entries : Vector (Option (Fin size)) size) (index other : Fin size) :
    (write (numbers entries) index (some other.val) : Checked α (Array (Option Nat))) =
      pure (numbers (entries.set index (some other) index.isLt)) :=
  write_map number? entries index (some other)

theorem toList_numbers (entries : Vector (Option (Fin size)) size) :
    (numbers entries).toList =
      (List.finRange size).map fun index => number? (entries.get index) := by
  change (entries.map number?).toList = _
  rw [toList_eq_ofFn_get, List.ofFn_eq_map]
  exact List.map_congr_left fun index _ => get_map number? entries index

end Flat

open Flat

structure FlatMatching where
  /-- The column of each row. -/
  cols : Array (Option Nat)
  /-- The row of each column. -/
  rows : Array (Option Nat)

variable {α : Type} {size : Nat}

def Matching.flat (matching : Matching size) : FlatMatching where
  cols := numbers matching.cols
  rows := numbers matching.rows

namespace FlatMatching

def empty (size : Nat) : FlatMatching where
  cols := Array.replicate size none
  rows := Array.replicate size none

def colOf (matching : FlatMatching) (row : Nat) : Checked α (Option Nat) :=
  read matching.cols row

def rowOf (matching : FlatMatching) (col : Nat) : Checked α (Option Nat) :=
  read matching.rows col

def pairs (matching : FlatMatching) : List (Nat × Nat) :=
  matching.cols.toList.zipIdx.filterMap fun (col?, row) => col?.map fun col => (row, col)

def count (matching : FlatMatching) : Nat :=
  matching.cols.toList.countP Option.isSome

def assign (matching : FlatMatching) (cell : Nat × Nat) : Checked α FlatMatching := do
  return {
    cols := ← write matching.cols cell.1 (some cell.2)
    rows := ← write matching.rows cell.2 (some cell.1) }

def augment (matching : FlatMatching) (path : List (Nat × Nat)) : Checked α FlatMatching :=
  path.foldlM assign matching

variable (matching : Matching size)

theorem empty_flat : (Matching.empty size).flat = empty size := by
  simp [Matching.flat, Matching.empty, empty, numbers, number?]

@[simp]
theorem colOf_flat (row : Fin size) :
    (matching.flat.colOf row : Checked α (Option Nat)) = pure (number? (matching.colOf row)) :=
  read_numbers matching.cols row

@[simp]
theorem rowOf_flat (col : Fin size) :
    (matching.flat.rowOf col : Checked α (Option Nat)) = pure (number? (matching.rowOf col)) :=
  read_numbers matching.rows col

@[simp]
theorem count_flat : matching.flat.count = matching.count := by
  rw [count, Matching.flat, toList_numbers, List.countP_map, Matching.count]
  exact List.countP_congr fun row _ => by simp [number?, Matching.colOf]

@[simp]
theorem pairs_flat : matching.flat.pairs = matching.pairs.map indices := by
  have hindexed : ((List.finRange size).map fun row => number? (matching.colOf row)).zipIdx =
      (List.finRange size).map fun row => (number? (matching.colOf row), row.val) := by
    rw [List.zipIdx_eq_zip_range', List.length_map, List.length_finRange, ← List.range_eq_range',
      ← List.map_coe_finRange_eq_range, List.zip_map']
  rw [pairs, Matching.flat, toList_numbers]
  change (List.zipIdx ((List.finRange size).map fun row => number? (matching.colOf row))).filterMap
    _ = _
  rw [hindexed, List.filterMap_map, Matching.pairs, List.map_filterMap]
  refine List.filterMap_congr fun row _ => ?_
  cases hcol : matching.colOf row <;> simp [hcol, number?, indices]

@[simp]
theorem assign_flat (cell : Fin size × Fin size) :
    (matching.flat.assign (indices cell) : Checked α FlatMatching) =
      pure (matching.assign cell).flat := by
  simp [assign, Matching.flat, Matching.assign, indices]

/-- Along a path of plain numbers no write leaves the two arrays. -/
@[simp]
theorem augment_flat (path : Path size) :
    (matching.flat.augment (path.map indices) : Checked α FlatMatching) =
      pure (matching.augment path).flat := by
  rw [augment, List.foldlM_map]
  exact foldlM_view Matching.flat (fun matching cell => assign_flat matching cell) path matching

end FlatMatching

end Hungarian
