import Hungarian.Square

/-!
Partial matchings of the rows and the columns of a square, and the paths that enlarge them.
-/

namespace Hungarian

/-- The cells of an alternating path that become matched, from its first row on. Between two of them
lies the matched cell of the column of the first and the row of the second. -/
abbrev Path (size : Nat) := List (Fin size × Fin size)

structure Matching (size : Nat) where
  cols : Vector (Option (Fin size)) size
  rows : Vector (Option (Fin size)) size
deriving DecidableEq, Repr

namespace Matching

variable {size : Nat}

def empty (size : Nat) : Matching size where
  cols := Vector.replicate size none
  rows := Vector.replicate size none

def colOf (matching : Matching size) (row : Fin size) : Option (Fin size) :=
  matching.cols.get row

def rowOf (matching : Matching size) (col : Fin size) : Option (Fin size) :=
  matching.rows.get col

def pairs (matching : Matching size) : List (Fin size × Fin size) :=
  (List.finRange size).filterMap fun row => (matching.colOf row).map fun col => (row, col)

def count (matching : Matching size) : Nat :=
  (List.finRange size).countP fun row => (matching.colOf row).isSome

def isEmpty (matching : Matching size) : Bool :=
  (List.finRange size).all fun row => (matching.colOf row).isNone

/-- The matching with one more cell; what its row and its column were matched to is forgotten on
this side only. -/
def assign (matching : Matching size) (cell : Fin size × Fin size) : Matching size where
  cols := matching.cols.set cell.1 (some cell.2) cell.1.isLt
  rows := matching.rows.set cell.2 (some cell.1) cell.2.isLt

def augment (matching : Matching size) (path : Path size) : Matching size :=
  path.foldl assign matching

@[simp]
theorem colOf_empty (row : Fin size) : (empty size).colOf row = none :=
  get_replicate none row

@[simp]
theorem rowOf_empty (col : Fin size) : (empty size).rowOf col = none :=
  get_replicate none col

theorem colOf_assign (matching : Matching size) (cell : Fin size × Fin size) (row : Fin size) :
    (matching.assign cell).colOf row =
      if row = cell.1 then some cell.2 else matching.colOf row :=
  get_set matching.cols cell.1 row (some cell.2)

theorem rowOf_assign (matching : Matching size) (cell : Fin size × Fin size) (col : Fin size) :
    (matching.assign cell).rowOf col =
      if col = cell.2 then some cell.1 else matching.rowOf col :=
  get_set matching.rows cell.2 col (some cell.1)

@[simp]
theorem augment_nil (matching : Matching size) : matching.augment [] = matching := rfl

@[simp]
theorem augment_cons (matching : Matching size) (cell : Fin size × Fin size) (path : Path size) :
    matching.augment (cell :: path) = (matching.assign cell).augment path := rfl

theorem mem_pairs {matching : Matching size} {row col : Fin size} :
    (row, col) ∈ matching.pairs ↔ matching.colOf row = some col := by
  simp only [pairs, List.mem_filterMap, List.mem_finRange, true_and, Option.map_eq_some_iff,
    Prod.mk.injEq]
  constructor
  · rintro ⟨other, found, hfound, rfl, rfl⟩
    exact hfound
  · exact fun h => ⟨row, col, h, rfl, rfl⟩

/-- Both directions agree: a row is matched to a column exactly when the column is matched to the
row. -/
def Consistent (matching : Matching size) : Prop :=
  ∀ row col, matching.colOf row = some col ↔ matching.rowOf col = some row

theorem consistent_empty : (empty size).Consistent := by
  intro row col
  rw [colOf_empty, rowOf_empty]
  constructor <;> exact fun h => nomatch h

end Matching

end Hungarian
