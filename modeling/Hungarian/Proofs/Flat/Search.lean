import Hungarian.Proofs.Flat.Matching
import Hungarian.Proofs.Flat.Potentials
import Hungarian.Search.Run

/-!
# Searches in flat arrays

The tree keeps the parents of its columns as plain numbers, stale ones of earlier searches among
them. Each is the index of a row, so the path that is read back from them stays inside the arrays,
wherever it leads.
-/

namespace Hungarian

open Flat CostArithmetic

structure FlatTree (α : Type) where
  rows : Array Bool
  cols : Array Bool
  slack : Array α
  parent : Array Nat

variable {α : Type} {size : Nat}

def Tree.flat (tree : Tree α size) : FlatTree α where
  rows := tree.rows.toArray
  cols := tree.cols.toArray
  slack := tree.slack.toArray
  parent := (tree.parent.map Fin.val).toArray

namespace FlatTree

section Accesses

variable (tree : Tree α size)

@[simp]
theorem read_rows_flat (row : Fin size) :
    (read tree.flat.rows row : Checked α Bool) = pure (tree.rows.get row) :=
  read_toArray tree.rows row

@[simp]
theorem read_cols_flat (col : Fin size) :
    (read tree.flat.cols col : Checked α Bool) = pure (tree.cols.get col) :=
  read_toArray tree.cols col

@[simp]
theorem read_slack_flat (col : Fin size) :
    (read tree.flat.slack col : Checked α α) = pure (tree.slack.get col) :=
  read_toArray tree.slack col

@[simp]
theorem read_parent_flat (col : Fin size) :
    (read tree.flat.parent col : Checked α Nat) = pure (tree.parent.get col).val := by
  rw [Tree.flat, read_toArray, get_map]

@[simp]
theorem write_rows_flat (row : Fin size) :
    (write tree.flat.rows row true : Checked α (Array Bool)) =
      pure (tree.rows.set row true row.isLt).toArray :=
  write_toArray tree.rows row true

@[simp]
theorem write_slack_flat (col : Fin size) (slack : α) :
    (write tree.flat.slack col slack : Checked α (Array α)) =
      pure (tree.slack.set col slack col.isLt).toArray :=
  write_toArray tree.slack col slack

@[simp]
theorem write_parent_flat (col row : Fin size) :
    (write tree.flat.parent col row.val : Checked α (Array Nat)) =
      pure ((tree.parent.set col row col.isLt).map Fin.val).toArray :=
  write_map Fin.val tree.parent col row

end Accesses

/-! ### The way back -/

def traceBack (tree : FlatTree α) (matching : FlatMatching) (root : Nat) :
    Nat → Nat → List (Nat × Nat) → Checked α (List (Nat × Nat))
  | steps, col, path => do
    let row ← read tree.parent col
    let path := (row, col) :: path
    if row = root then
      return path
    else
      match steps with
      | 0 => .error SearchError.cyclicPath.toFailure
      | steps + 1 =>
        match ← matching.colOf row with
        | none => .error SearchError.unmatchedTreeRow.toFailure
        | some next => tree.traceBack matching root steps next path

/-- The parents of the tree lead back without an index outside. -/
theorem traceBack_flat (tree : Tree α size) (matching : Matching size) (root : Fin size)
    (steps : Nat) (col : Fin size) (path : Path size) :
    tree.flat.traceBack matching.flat root steps col (path.map indices) =
      ((tree.traceBack matching root steps col path).mapError SearchError.toFailure).map
        (List.map indices) := by
  rw [traceBack, Tree.traceBack.eq_def, read_parent_flat, pure_bind]
  dsimp only
  by_cases hroot : tree.parent.get col = root
  · rw [if_pos (congrArg Fin.val hroot), if_pos hroot]
    rfl
  · rw [if_neg (Fin.val_ne_of_ne hroot), if_neg hroot]
    cases steps with
    | zero => rfl
    | succ steps =>
        dsimp only
        rw [FlatMatching.colOf_flat, pure_bind]
        cases matching.colOf (tree.parent.get col) with
        | none => rfl
        | some next =>
            exact traceBack_flat tree matching root steps next ((tree.parent.get col, col) :: path)

/-! ### Growing a tree -/

def reach (tree : FlatTree α) (col : Nat) : Checked α (FlatTree α) := do
  return { tree with cols := ← write tree.cols col true }

@[simp]
theorem reach_flat (tree : Tree α size) (col : Fin size) :
    tree.flat.reach col = pure (tree.reach col).flat := by
  rw [reach, Tree.flat, write_toArray, pure_bind]
  rfl

variable [CostArithmetic α]

def blank (size : Nat) : FlatTree α where
  rows := Array.replicate size false
  cols := Array.replicate size false
  slack := Array.replicate size (ceiling.getD 0)
  parent := Array.replicate size 0

def relax (problem : FlatProblem α) (potentials : FlatPotentials α) (isNearer : α → α → Bool)
    (row : Nat) (tree : FlatTree α) (col : Nat) : Checked α (FlatTree α) := do
  if ← read tree.cols col then
    return tree
  else
    let reduced ← potentials.reducedCost problem row col
    if isNearer reduced (← read tree.slack col) then
      return {
        tree with
        slack := ← write tree.slack col reduced
        parent := ← write tree.parent col row }
    else
      return tree

def scan (problem : FlatProblem α) (potentials : FlatPotentials α) (isNearer : α → α → Bool)
    (row : Nat) (tree : FlatTree α) : Checked α (FlatTree α) :=
  (List.range problem.size).foldlM (relax problem potentials isNearer row) tree

/-- The tables are cleared for a new root, except for the parents. -/
def plant (problem : FlatProblem α) (potentials : FlatPotentials α) (old : FlatTree α)
    (root : Nat) : Checked α (FlatTree α) := do
  let rows ← write (old.rows.map fun _ => false) root true
  scan problem potentials (fun reduced _ => belowCeiling reduced) root {
    rows
    cols := old.cols.map fun _ => false
    slack := old.slack.map fun _ => ceiling.getD 0
    parent := old.parent }

def enter (problem : FlatProblem α) (potentials : FlatPotentials α) (tree : FlatTree α)
    (row : Nat) : Checked α (FlatTree α) := do
  let rows ← write tree.rows row true
  scan problem potentials (fun reduced slack => reduced < slack) row { tree with rows }

def closer (tree : FlatTree α) (best : Option Nat) (col : Nat) : Checked α (Option Nat) := do
  if ← read tree.cols col then
    return best
  else
    match best with
    | none => return some col
    | some other =>
      if precedes (← read tree.slack col) (← read tree.slack other) then return some col
      else return best

def closest? (tree : FlatTree α) (size : Nat) : Checked α (Option Nat) :=
  (List.range size).foldlM tree.closer none

def tighten (tree : FlatTree α) (delta : α) : FlatTree α where
  rows := tree.rows
  cols := tree.cols
  slack := Array.zipWith (fun slack isInside => if isInside then slack else slack - delta)
    tree.slack tree.cols
  parent := tree.parent

/-! ### Trees -/

variable (problem : Problem α size) (potentials : Potentials α size) (tree : Tree α size)

theorem blank_flat : (Tree.blank : Tree α size).flat = blank size := by
  have hparent : (Vector.ofFn fun col : Fin size => (⟨0, col.pos⟩ : Fin size)).map Fin.val =
      Vector.replicate size 0 := by
    refine vector_ext fun col => ?_
    rw [get_map, get_ofFn, get_replicate]
  rw [Tree.flat, Tree.blank, hparent]
  rfl

/-! ### Scanning -/

section Scan

variable (isNearer : α → α → Bool) (row col : Fin size)

def isTaken : Bool :=
  !tree.cols.get col && isNearer (potentials.reducedCost problem row col) (tree.slack.get col)

def relaxed : Tree α size :=
  if isTaken problem potentials tree isNearer row col then
    { tree with
      slack := tree.slack.set col (potentials.reducedCost problem row col) col.isLt
      parent := tree.parent.set col row col.isLt }
  else
    tree

theorem relax_flat : relax problem.flat potentials.flat isNearer row tree.flat col =
    pure (relaxed problem potentials tree isNearer row col).flat := by
  rw [relax, relaxed, isTaken, read_cols_flat, pure_bind]
  cases hcol : tree.cols.get col with
  | true => rfl
  | false =>
      rw [if_neg Bool.false_ne_true, FlatPotentials.reducedCost_flat, pure_bind, read_slack_flat,
        pure_bind]
      cases hnearer : isNearer (potentials.reducedCost problem row col) (tree.slack.get col) with
      | true =>
          rw [if_pos rfl, write_slack_flat, pure_bind, write_parent_flat, pure_bind]
          rfl
      | false => rfl

def scanned (count : Nat) : Tree α size :=
  { tree with
    slack := updated tree.slack (isTaken problem potentials tree isNearer row)
      (potentials.reducedCost problem row) count
    parent := updated tree.parent (isTaken problem potentials tree isNearer row) (fun _ => row)
      count }

theorem scanned_zero : scanned problem potentials tree isNearer row 0 = tree := by
  rw [scanned, updated_zero, updated_zero]

/-- A column that a scan has not come to has the slack it had before. -/
theorem isTaken_scanned :
    isTaken problem potentials (scanned problem potentials tree isNearer row col) isNearer row col =
      isTaken problem potentials tree isNearer row col := by
  rw [isTaken, scanned, get_updated_self]
  rfl

theorem relaxed_scanned :
    relaxed problem potentials (scanned problem potentials tree isNearer row col) isNearer row col =
      scanned problem potentials tree isNearer row (col + 1) := by
  rw [relaxed, isTaken_scanned, scanned, scanned, updated_succ, updated_succ]
  split <;> rfl

/-- A scan compares the row with every column, from the first one on. -/
theorem scan_flat : scan problem.flat potentials.flat isNearer row tree.flat =
    pure (scanned problem potentials tree isNearer row size).flat := by
  -- The loop is at a column when the columns before it are scanned.
  have hstep : ∀ count < size, relax problem.flat potentials.flat isNearer row
      (scanned problem potentials tree isNearer row count).flat count =
      pure (scanned problem potentials tree isNearer row (count + 1)).flat := by
    intro count hcount
    have hrelax := relax_flat problem potentials
      (scanned problem potentials tree isNearer row count) isNearer row ⟨count, hcount⟩
    rwa [relaxed_scanned problem potentials tree isNearer row ⟨count, hcount⟩] at hrelax
  have hloop := foldlM_range
    (fun count => (scanned problem potentials tree isNearer row count).flat) hstep
  rwa [scanned_zero] at hloop

end Scan

theorem enter_flat (row : Fin size) : tree.flat.enter problem.flat potentials.flat row =
    pure (tree.enter problem potentials row).flat := by
  rw [enter, write_rows_flat, pure_bind]
  refine (scan_flat problem potentials { tree with rows := tree.rows.set row true row.isLt }
    (fun reduced slack => reduced < slack) row).trans ?_
  rw [scanned, updated_size, updated_size]
  rfl

/-- Above the ceiling there is nothing, so what a row does not reach below it stays there. -/
theorem ceiling_getD_of_not_belowCeiling {reduced : α} (h : ¬belowCeiling reduced) :
    (ceiling : Option α).getD 0 = ceiling.getD reduced := by
  rw [belowCeiling] at h
  cases htop : (ceiling : Option α) with
  | none => simp [htop] at h
  | some top => rfl

def cleared (root : Fin size) : Tree α size where
  rows := (Vector.replicate size false).set root true root.isLt
  cols := Vector.replicate size false
  slack := Vector.replicate size (ceiling.getD 0)
  parent := tree.parent
  moves := []

/-- Planting is a scan of a tree that has been cleared. -/
theorem scanned_cleared (root : Fin size) :
    scanned problem potentials (cleared tree root) (fun reduced _ => belowCeiling reduced) root
      size = tree.plant problem potentials root := by
  have htaken (col : Fin size) : isTaken problem potentials (cleared tree root)
      (fun reduced _ => belowCeiling reduced) root col =
      belowCeiling (potentials.reducedCost problem root col) := by
    rw [isTaken, cleared, get_replicate]
    rfl
  have hslack : (Vector.ofFn fun col => if belowCeiling (potentials.reducedCost problem root col)
      then potentials.reducedCost problem root col else (cleared tree root).slack.get col) =
      (tree.plant problem potentials root).slack := by
    refine vector_ext fun col => ?_
    rw [get_ofFn, Tree.slack_plant, cleared, get_replicate]
    split
    · rfl
    · next habove => exact ceiling_getD_of_not_belowCeiling habove
  rw [scanned, updated_size, updated_size]
  simp only [htaken, hslack]
  rfl

theorem plant_flat (root : Fin size) : tree.flat.plant problem.flat potentials.flat root =
    pure (tree.plant problem potentials root).flat := by
  have hfill {β γ : Type} (entries : Vector β size) (value : γ) :
      entries.toArray.map (fun _ => value) = (Vector.replicate size value).toArray := by
    rw [← Vector.toArray_map]
    exact congrArg Vector.toArray (vector_ext fun index => by rw [get_map, get_replicate])
  rw [plant, Tree.flat, hfill, hfill, hfill, write_toArray, pure_bind, ← scanned_cleared]
  exact scan_flat problem potentials (cleared tree root) _ root

theorem closest?_flat : tree.flat.closest? size = pure (number? tree.closest?) := by
  have hcloser (best : Option (Fin size)) (col : Fin size) :
      tree.flat.closer (number? best) col = pure (number? (tree.closer best col)) := by
    unfold closer Tree.closer
    rw [read_cols_flat, pure_bind]
    split
    · rfl
    · cases best with
      | none => rfl
      | some other =>
          simp only [number?, Option.map_some, read_slack_flat, pure_bind]
          split <;> rfl
  rw [closest?, foldlM_range_eq]
  exact foldlM_view number? hcloser (List.finRange size) none

theorem tighten_flat (delta : α) : tree.flat.tighten delta = (tree.tighten delta).flat := by
  rw [tighten, Tree.flat, zipWith_toArray]
  rfl

end FlatTree

/-! ### Searches -/

structure FlatState (α : Type) where
  tree : FlatTree α
  potentials : FlatPotentials α

inductive FlatProgress (α : Type) where
  | grows (state : FlatState α)
  | arrives (col : Nat) (state : FlatState α)

namespace Search

def State.flat (state : State α size) : FlatState α where
  tree := state.tree.flat
  potentials := state.potentials.flat

def Progress.flat : Progress α size → Checked α (FlatProgress α)
  | .grows state => pure (.grows state.flat)
  | .arrives col state => pure (.arrives col state.flat)
  | .breaks error _ => .error error.toFailure

end Search

namespace FlatState

variable [CostArithmetic α]

def tighten (state : FlatState α) (delta : α) : FlatState α where
  tree := state.tree.tighten delta
  potentials := state.potentials.tighten delta state.tree.rows state.tree.cols

def join (problem : FlatProblem α) (matching : FlatMatching) (state : FlatState α) (col : Nat) :
    Checked α (FlatProgress α) := do
  let tree ← state.tree.reach col
  match ← matching.rowOf col with
  | none => return .arrives col { state with tree }
  | some row =>
    if ← read tree.rows row then
      .error SearchError.rowReachedTwice.toFailure
    else
      return .grows { state with tree := ← tree.enter problem state.potentials row }

def advance (problem : FlatProblem α) (matching : FlatMatching) (state : FlatState α) :
    Checked α (FlatProgress α) := do
  match ← state.tree.closest? problem.size with
  | none => .error SearchError.noColumnLeft.toFailure
  | some col =>
    let slack ← read state.tree.slack col
    if problem.epsilon < slack then return .grows (state.tighten slack)
    else state.join problem matching col

def explore (problem : FlatProblem α) (matching : FlatMatching) :
    Nat → FlatState α → Checked α (Nat × FlatState α)
  | 0, _ => .error SearchError.stalled.toFailure
  | steps + 1, state => do
    match ← state.advance problem matching with
    | .grows next => explore problem matching steps next
    | .arrives col last => return (col, last)

def run (problem : FlatProblem α) (matching : FlatMatching) (state : FlatState α) (root : Nat) :
    Checked α (List (Nat × Nat) × FlatState α) := do
  if (← matching.colOf root).isSome then
    .error SearchError.matchedRoot.toFailure
  else
    let tree ← state.tree.plant problem state.potentials root
    let (col, last) ← explore problem matching (2 * problem.size + 1) { state with tree }
    return (← last.tree.traceBack matching root problem.size col [], last)

variable (problem : Problem α size) (matching : Matching size) (state : Search.State α size)

theorem tighten_flat (delta : α) : state.flat.tighten delta = (state.tighten delta).flat := by
  rw [tighten, Search.State.flat, FlatTree.tighten_flat]
  exact congrArg (FlatState.mk _) (FlatPotentials.tighten_flat ..)

theorem join_flat (col : Fin size) : state.flat.join problem.flat matching.flat col =
    (state.join problem matching col).flat := by
  unfold join Search.State.join
  rw [Search.State.flat, FlatTree.reach_flat, pure_bind, FlatMatching.rowOf_flat, pure_bind]
  cases matching.rowOf col with
  | none => rfl
  | some row =>
      change (read (state.tree.reach col).flat.rows row >>= _) = _
      rw [FlatTree.read_rows_flat, pure_bind]
      dsimp only [Search.State.reach]
      split
      · rfl
      · rw [FlatTree.enter_flat, pure_bind]
        rfl

theorem advance_flat : state.flat.advance problem.flat matching.flat =
    (Search.advance problem matching state).flat := by
  unfold advance Search.advance
  rw [Search.State.flat, Problem.size_flat, FlatTree.closest?_flat, pure_bind]
  cases state.tree.closest? with
  | none => rfl
  | some col =>
      change (read state.tree.flat.slack col >>= _) = _
      rw [FlatTree.read_slack_flat, pure_bind, Problem.epsilon_flat]
      dsimp only
      split
      · exact congrArg (fun state => pure (FlatProgress.grows state)) (tighten_flat state _)
      · exact join_flat problem matching state col

/-- Step by step, the search in flat arrays takes the same turns. -/
theorem explore_flat (steps : Nat) : explore problem.flat matching.flat steps state.flat =
    ((Search.explore problem matching steps state).2.mapError SearchError.toFailure).map
      fun col => (col.val, (Search.explore problem matching steps state).1.flat) := by
  induction steps generalizing state with
  | zero => rfl
  | succ steps ih =>
      rw [explore, Search.explore, advance_flat]
      cases Search.advance problem matching state with
      | grows next => exact ih next
      | arrives col last => rfl
      | breaks error last => rfl

theorem run_flat (root : Fin size) : state.flat.run problem.flat matching.flat root =
    ((Search.run problem matching state root).2.mapError SearchError.toFailure).map
      fun path => (path.map indices, (Search.run problem matching state root).1.flat) := by
  unfold run Search.run
  rw [FlatMatching.colOf_flat, pure_bind, number?, Option.isSome_map]
  split
  · rfl
  · rw [Search.State.flat, FlatTree.plant_flat, pure_bind]
    refine (congrArg (· >>= _)
      (explore_flat problem matching (state.plant problem root) _)).trans ?_
    rw [Problem.size_flat]
    rcases Search.explore problem matching (2 * size + 1) (state.plant problem root) with
      ⟨last, error | col⟩
    · rfl
    · change (last.tree.flat.traceBack matching.flat root size col
        (List.map indices ([] : Path size)) >>= _) = _
      rw [FlatTree.traceBack_flat]
      dsimp only
      cases last.tree.traceBack matching root size col [] <;> rfl

end FlatState

end Hungarian
