import Hungarian.Matching
import Hungarian.Potentials

/-!
Alternating trees. A tree grows from one row; a column joins it through the row of the tree that is
nearest to it, its parent, and brings in the row it is matched to. For a column outside the tree the
tree knows its slack, the least reduced cost from a row of the tree.
-/

namespace Hungarian

open CostArithmetic

inductive Move (α : Type) (size : Nat) where
  | tighten (delta : α)
  | reach (col : Fin size)
deriving DecidableEq, Repr

structure Tree (α : Type) (size : Nat) where
  rows : Vector Bool size
  cols : Vector Bool size
  slack : Vector α size
  parent : Vector (Fin size) size
  /-- All moves since the tree was planted, the first one first. -/
  moves : List (Move α size)

inductive SearchError where
  | matchedRoot
  | noColumnLeft
  | rowReachedTwice
  | cyclicPath
  | unmatchedTreeRow
  /-- The steps of a search are used up. -/
  | stalled
deriving DecidableEq, Repr

namespace Tree

variable {α : Type} {size : Nat}

def reach (tree : Tree α size) (col : Fin size) : Tree α size where
  rows := tree.rows
  cols := tree.cols.set col true col.isLt
  slack := tree.slack
  parent := tree.parent
  moves := tree.moves ++ [.reach col]

theorem cols_reach (tree : Tree α size) (col other : Fin size) :
    (tree.reach col).cols.get other = if other = col then true else tree.cols.get other :=
  get_set tree.cols col other true

def deltas (tree : Tree α size) : List α :=
  tree.moves.filterMap fun
    | .tighten delta => some delta
    | .reach _ => none

def reached (tree : Tree α size) : List (Fin size) :=
  tree.moves.filterMap fun
    | .tighten _ => none
    | .reach col => some col

theorem reached_reach (tree : Tree α size) (col : Fin size) :
    (tree.reach col).reached = tree.reached ++ [col] := by
  simp [reached, reach]

theorem deltas_reach (tree : Tree α size) (col : Fin size) :
    (tree.reach col).deltas = tree.deltas := by
  simp [deltas, reach]

def tightenings (tree : Tree α size) : Nat :=
  tree.deltas.length

/-- The cells from a column back to the root, put before the cells found so far: a column is left
for its parent, and a row other than the root for the column it is matched to. -/
def traceBack (tree : Tree α size) (matching : Matching size) (root : Fin size) :
    Nat → Fin size → Path size → Except SearchError (Path size)
  | steps, col, path =>
    let row := tree.parent.get col
    let path := (row, col) :: path
    if row = root then .ok path
    else
      match steps with
      | 0 => .error .cyclicPath
      | steps + 1 =>
        match matching.colOf row with
        | none => .error .unmatchedTreeRow
        | some next => tree.traceBack matching root steps next path

variable [CostArithmetic α]

def blank : Tree α size where
  rows := Vector.replicate size false
  cols := Vector.replicate size false
  slack := Vector.replicate size (ceiling.getD 0)
  parent := Vector.ofFn fun col => ⟨0, col.pos⟩
  moves := []

/-- The tree of one row. Every column that the row reaches below the ceiling has it as its parent; a
column that it does not reach keeps the parent it had in the tree before. -/
def plant (problem : Problem α size) (potentials : Potentials α size) (old : Tree α size)
    (root : Fin size) : Tree α size where
  rows := (Vector.replicate size false).set root true root.isLt
  cols := Vector.replicate size false
  slack := Vector.ofFn fun col =>
    let reduced := potentials.reducedCost problem root col
    if belowCeiling reduced then reduced else ceiling.getD reduced
  parent := Vector.ofFn fun col =>
    if belowCeiling (potentials.reducedCost problem root col) then root
    else old.parent.get col
  moves := []

theorem rows_plant (problem : Problem α size) (potentials : Potentials α size)
    (old : Tree α size) (root row : Fin size) :
    (plant problem potentials old root).rows.get row = decide (row = root) := by
  refine (get_set (Vector.replicate size false) root row true).trans ?_
  rw [get_replicate]
  by_cases h : row = root
  · rw [if_pos h, decide_eq_true h]
  · rw [if_neg h, decide_eq_false h]

theorem cols_plant (problem : Problem α size) (potentials : Potentials α size)
    (old : Tree α size) (root col : Fin size) :
    (plant problem potentials old root).cols.get col = false :=
  get_replicate false col

theorem slack_plant (problem : Problem α size) (potentials : Potentials α size)
    (old : Tree α size) (root col : Fin size) :
    (plant problem potentials old root).slack.get col =
      if belowCeiling (potentials.reducedCost problem root col) then
        potentials.reducedCost problem root col
      else ceiling.getD (potentials.reducedCost problem root col) :=
  get_ofFn _ col

theorem parent_plant (problem : Problem α size) (potentials : Potentials α size)
    (old : Tree α size) (root col : Fin size) :
    (plant problem potentials old root).parent.get col =
      if belowCeiling (potentials.reducedCost problem root col) then root
      else old.parent.get col :=
  get_ofFn _ col

def improves (problem : Problem α size) (potentials : Potentials α size) (tree : Tree α size)
    (row col : Fin size) : Bool :=
  !tree.cols.get col && potentials.reducedCost problem row col < tree.slack.get col

def enter (problem : Problem α size) (potentials : Potentials α size) (tree : Tree α size)
    (row : Fin size) : Tree α size where
  rows := tree.rows.set row true row.isLt
  cols := tree.cols
  slack := Vector.ofFn fun col =>
    if tree.improves problem potentials row col then potentials.reducedCost problem row col
    else tree.slack.get col
  parent := Vector.ofFn fun col =>
    if tree.improves problem potentials row col then row
    else tree.parent.get col
  moves := tree.moves

theorem rows_enter (problem : Problem α size) (potentials : Potentials α size)
    (tree : Tree α size) (row other : Fin size) :
    (tree.enter problem potentials row).rows.get other =
      if other = row then true else tree.rows.get other :=
  get_set tree.rows row other true

theorem slack_enter (problem : Problem α size) (potentials : Potentials α size)
    (tree : Tree α size) (row col : Fin size) :
    (tree.enter problem potentials row).slack.get col =
      if tree.improves problem potentials row col then potentials.reducedCost problem row col
      else tree.slack.get col :=
  get_ofFn _ col

theorem parent_enter (problem : Problem α size) (potentials : Potentials α size)
    (tree : Tree α size) (row col : Fin size) :
    (tree.enter problem potentials row).parent.get col =
      if tree.improves problem potentials row col then row else tree.parent.get col :=
  get_ofFn _ col

def closer (tree : Tree α size) (best : Option (Fin size)) (col : Fin size) : Option (Fin size) :=
  if tree.cols.get col then best
  else
    match best with
    | none => some col
    | some other =>
      if precedes (tree.slack.get col) (tree.slack.get other) then some col else best

/-- The column outside the tree with the least slack, the first one of several. -/
def closest? (tree : Tree α size) : Option (Fin size) :=
  (List.finRange size).foldl tree.closer none

def tighten (tree : Tree α size) (delta : α) : Tree α size where
  rows := tree.rows
  cols := tree.cols
  slack := Vector.ofFn fun col =>
    if tree.cols.get col then tree.slack.get col else tree.slack.get col - delta
  parent := tree.parent
  moves := tree.moves ++ [.tighten delta]

theorem deltas_tighten (tree : Tree α size) (delta : α) :
    (tree.tighten delta).deltas = tree.deltas ++ [delta] := by
  simp [deltas, tighten]

theorem reached_tighten (tree : Tree α size) (delta : α) :
    (tree.tighten delta).reached = tree.reached := by
  simp [reached, tighten]

theorem slack_tighten (tree : Tree α size) (delta : α) (col : Fin size) :
    (tree.tighten delta).slack.get col =
      if tree.cols.get col then tree.slack.get col else tree.slack.get col - delta :=
  get_ofFn _ col

end Tree

end Hungarian
