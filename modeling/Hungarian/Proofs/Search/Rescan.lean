import Mathlib.Data.List.MinMax
import Hungarian.Proofs.Arithmetic.Exact
import Hungarian.Search.Run

/-!
# A search that remembers no distances

A plain search over exact numbers keeps the rows of its tree in the order in which they entered,
each with its path from the root, and at every step takes all distances from the potentials anew. Its
nearest row could be kept all the same: the least of several rows is found by comparing with one row
after another, and a move of the potentials changes no comparison, because it takes the same from
all rows of the tree.
-/

namespace Hungarian

open CostArithmetic

/-- The tree of a plain search, without a slack and without a parent. -/
structure Rescan (size : Nat) where
  /-- The rows in the order in which they entered, each with its path from the root. -/
  entered : List (Fin size × Path size)
  moves : List (Move ℚ size)
  potentials : Potentials ℚ size

namespace Rescan

variable {size : Nat}

def rows (scan : Rescan size) : List (Fin size) :=
  scan.entered.map Prod.fst

def cols (scan : Rescan size) : List (Fin size) :=
  scan.moves.filterMap fun
    | .tighten _ => none
    | .reach col => some col

def marks (indices : List (Fin size)) : Vector Bool size :=
  Vector.ofFn fun index => decide (index ∈ indices)

def distance (problem : Problem ℚ size) (scan : Rescan size) (col : Fin size) : ℚ :=
  (least? (scan.rows.map fun row => scan.potentials.reducedCost problem row col)).getD 0

/-- The row that is nearest to a column, of several the one that entered first. -/
def nearest? (problem : Problem ℚ size) (scan : Rescan size) (col : Fin size) :
    Option (Fin size × Path size) :=
  scan.entered.argmin fun entry => scan.potentials.reducedCost problem entry.1 col

def pathTo (problem : Problem ℚ size) (scan : Rescan size) (col : Fin size) : Path size :=
  (scan.nearest? problem col).elim [] fun entry => entry.2 ++ [(entry.1, col)]

def closest? (problem : Problem ℚ size) (scan : Rescan size) : Option (Fin size) :=
  ((List.finRange size).filter (· ∉ scan.cols)).argmin (scan.distance problem)

def tighten (scan : Rescan size) (delta : ℚ) : Rescan size where
  entered := scan.entered
  moves := scan.moves ++ [.tighten delta]
  potentials := scan.potentials.tighten delta (marks scan.rows) (marks scan.cols)

def reach (scan : Rescan size) (col : Fin size) : Rescan size :=
  { scan with moves := scan.moves ++ [.reach col] }

def enter (scan : Rescan size) (row : Fin size) (path : Path size) : Rescan size :=
  { scan with entered := scan.entered ++ [(row, path)] }

def explore (problem : Problem ℚ size) (matching : Matching size) :
    Nat → Rescan size → Rescan size × Except SearchError (Path size)
  | 0, scan => (scan, .error .stalled)
  | steps + 1, scan =>
    match scan.closest? problem with
    | none => (scan, .error .noColumnLeft)
    | some col =>
      let delta := scan.distance problem col
      if problem.epsilon < delta then explore problem matching steps (scan.tighten delta)
      else
        let path := scan.pathTo problem col
        match matching.rowOf col with
        | none => (scan.reach col, .ok path)
        | some row =>
          if row ∈ scan.rows then (scan.reach col, .error .rowReachedTwice)
          else explore problem matching steps ((scan.reach col).enter row path)

def plant (potentials : Potentials ℚ size) (root : Fin size) : Rescan size where
  entered := [(root, [])]
  moves := []
  potentials := potentials

def run (problem : Problem ℚ size) (matching : Matching size) (potentials : Potentials ℚ size)
    (root : Fin size) : Rescan size × Except SearchError (Path size) :=
  explore problem matching (2 * size + 1) (plant potentials root)

theorem get_marks (indices : List (Fin size)) (index : Fin size) :
    (marks indices).get index = decide (index ∈ indices) :=
  get_ofFn _ index

theorem marks_nil : marks [] = Vector.replicate size false := by
  apply vector_ext
  intro index
  rw [get_marks, get_replicate]
  simp

theorem set_marks (indices : List (Fin size)) (index : Fin size) :
    (marks indices).set index true index.isLt = marks (indices ++ [index]) := by
  apply vector_ext
  intro other
  rw [get_set, get_marks, get_marks]
  by_cases heq : other = index <;> simp [heq]

/-- The first least place depends only on how the values compare. -/
theorem argmin_eq_of_le_iff {β : Type} [DecidableEq β] {first second : β → ℚ} {places : List β}
    (h : ∀ place ∈ places, ∀ other ∈ places,
      (first place ≤ first other ↔ second place ≤ second other)) :
    places.argmin first = places.argmin second := by
  cases hleast : places.argmin first with
  | none =>
      rw [List.argmin_eq_none.mp hleast]
      rfl
  | some place =>
      obtain ⟨hmem, hle, hindex⟩ := List.argmin_eq_some_iff.mp hleast
      refine (List.argmin_eq_some_iff.mpr ⟨hmem, fun other hother => ?_, ?_⟩).symm
      · exact (h place hmem other hother).mp (hle other hother)
      · intro other hother hback
        exact hindex other hother ((h other hother place hmem).mpr hback)

section Distances

variable {problem : Problem ℚ size} {scan : Rescan size} {row col : Fin size} {path : Path size}
  {entry : Fin size × Path size}

theorem cols_tighten (scan : Rescan size) (delta : ℚ) : (scan.tighten delta).cols = scan.cols := by
  simp [cols, tighten]

theorem cols_reach (scan : Rescan size) (col : Fin size) :
    (scan.reach col).cols = scan.cols ++ [col] := by
  simp [cols, reach]

theorem rows_enter (scan : Rescan size) (row : Fin size) (path : Path size) :
    (scan.enter row path).rows = scan.rows ++ [row] := by
  simp [rows, enter]

theorem mem_rows_of_nearest? (h : scan.nearest? problem col = some entry) :
    entry.1 ∈ scan.rows :=
  List.mem_map_of_mem (List.argmin_mem h)

/-- The nearest row has the least reduced cost. -/
theorem isLeast_of_nearest? (h : scan.nearest? problem col = some entry) :
    IsLeast { cost | ∃ row ∈ scan.rows, scan.potentials.reducedCost problem row col = cost }
      (scan.potentials.reducedCost problem entry.1 col) := by
  refine ⟨⟨entry.1, mem_rows_of_nearest? h, rfl⟩, ?_⟩
  rintro cost ⟨row, hrow, rfl⟩
  obtain ⟨other, hother, rfl⟩ := List.mem_map.mp hrow
  exact List.le_of_mem_argmin hother h

theorem distance_eq (h : scan.nearest? problem col = some entry) :
    scan.distance problem col = scan.potentials.reducedCost problem entry.1 col := by
  have hleast := isLeast_of_nearest? h
  have hmem := List.mem_map_of_mem (f := fun row => scan.potentials.reducedCost problem row col)
    (mem_rows_of_nearest? h)
  apply le_antisymm (least?_getD_le hmem)
  obtain ⟨row, hrow, heq⟩ := List.mem_map.mp (least?_getD_mem (List.ne_nil_of_mem hmem))
  exact hleast.2 ⟨row, hrow, heq⟩

/-- The nearest row is kept up to date by comparing it with the row that enters. -/
theorem nearest?_enter (h : scan.nearest? problem col = some entry) (row : Fin size)
    (path : Path size) : (scan.enter row path).nearest? problem col =
      if scan.potentials.reducedCost problem row col <
        scan.potentials.reducedCost problem entry.1 col then some (row, path) else some entry := by
  refine (List.argmin_concat _ _ _).trans ?_
  have hold : scan.entered.argmin
      (fun entry => scan.potentials.reducedCost problem entry.1 col) = some entry := h
  simp only [enter, hold]
  exact if_congr Iff.rfl rfl rfl

/-- Moves of the potentials that take the same from all rows leave the nearest one as it is. -/
theorem nearest?_tighten {delta : ℚ}
    (hfalls : ∀ row ∈ scan.rows, (scan.tighten delta).potentials.reducedCost problem row col =
      scan.potentials.reducedCost problem row col - delta) :
    (scan.tighten delta).nearest? problem col = scan.nearest? problem col := by
  refine argmin_eq_of_le_iff fun first hfirst second hsecond => ?_
  rw [hfalls first.1 (List.mem_map_of_mem hfirst), hfalls second.1 (List.mem_map_of_mem hsecond)]
  exact sub_le_sub_iff_right delta

end Distances

end Rescan

end Hungarian
