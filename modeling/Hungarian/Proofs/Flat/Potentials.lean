import Hungarian.Potentials
import Hungarian.Proofs.Flat.Problem

/-!
# Potentials in flat arrays

Initial potentials, reduced costs and the checks of an answer, with a read for each operand. A check
of the whole square reads a cell only where it is asked about.
-/

namespace Hungarian

open Flat

structure FlatPotentials (α : Type) where
  rows : Array α
  cols : Array α

variable {α : Type} {size : Nat}

def Potentials.flat (potentials : Potentials α size) : FlatPotentials α where
  rows := potentials.rows.toArray
  cols := potentials.cols.toArray

@[simp]
theorem Potentials.rows_flat (potentials : Potentials α size) :
    potentials.flat.rows = potentials.rows.toArray := rfl

@[simp]
theorem Potentials.cols_flat (potentials : Potentials α size) :
    potentials.flat.cols = potentials.cols.toArray := rfl

namespace FlatPotentials

open CostArithmetic

variable [CostArithmetic α]

def initial (problem : FlatProblem α) : Checked α (FlatPotentials α) := do
  let rows ← (List.range problem.size).mapM fun row => do
    return (least? (← problem.rowAt row)).getD 0
  let cols ← (List.range problem.size).mapM fun col => do
    let left ← (List.range problem.size).mapM fun row => do
      return (← problem.costAt row col) - (← read rows.toArray row)
    return (least? left).getD 0
  return { rows := rows.toArray, cols := cols.toArray }

def reducedCost (problem : FlatProblem α) (potentials : FlatPotentials α) (row col : Nat) :
    Checked α α := do
  return (← problem.costAt row col) - (← read potentials.rows row) - (← read potentials.cols col)

def allowance (problem : FlatProblem α) (potentials : FlatPotentials α) (row col : Nat) :
    Checked α α := do
  let cost ← problem.costAt row col
  let larger := greater (absolute (← read potentials.rows row))
    (absolute (← read potentials.cols col))
  return problem.epsilon + roundingUnit * greater (absolute cost) larger

def isTight (problem : FlatProblem α) (potentials : FlatPotentials α) (row col : Nat) :
    Checked α Bool := do
  let reduced ← potentials.reducedCost problem row col
  return absolute reduced ≤ (← potentials.allowance problem row col)

def isFeasible (problem : FlatProblem α) (potentials : FlatPotentials α)
    (part : Nat → Nat → Checked α Bool) : Checked α Bool :=
  (List.range problem.size).allM fun row =>
    (List.range problem.size).allM fun col => do
      if ← part row col then
        let reduced ← potentials.reducedCost problem row col
        return -(← potentials.allowance problem row col) ≤ reduced
      else
        return true

def tighten (potentials : FlatPotentials α) (delta : α) (rows cols : Array Bool) :
    FlatPotentials α where
  rows := Array.zipWith
    (fun potential isInside => if isInside then potential + delta else potential)
    potentials.rows rows
  cols := Array.zipWith
    (fun potential isInside => if isInside then potential - delta else potential)
    potentials.cols cols

def dualObjective (potentials : FlatPotentials α) : α :=
  total potentials.rows.toList + total potentials.cols.toList

/-- A square that is not stored as a whole has a row that cannot be read. -/
theorem initial_ne_ok {problem : FlatProblem α}
    (h : problem.costs.size < problem.size * problem.size) (potentials : FlatPotentials α) :
    initial problem ≠ .ok potentials := by
  intro hinitial
  obtain ⟨rows, hrows, -⟩ := exists_of_bind_eq_ok hinitial
  -- the first such row, which ends before an index could wrap
  have hrow : problem.costs.size / problem.size < problem.size := Nat.div_lt_of_lt_mul h
  obtain ⟨least, hleast⟩ := exists_of_mapM_eq_ok hrows (List.mem_range.mpr hrow)
  obtain ⟨entries, hread, -⟩ := exists_of_bind_eq_ok hleast
  unfold FlatProblem.rowAt slice at hread
  split at hread
  · next hinside =>
      exact absurd hinside (Nat.not_le.mpr (Nat.lt_div_mul_add (Nat.zero_lt_of_lt hrow)))
  · cases hread

variable (problem : Problem α size) (potentials : Potentials α size) (row col : Fin size)

@[simp]
theorem initial_flat : initial problem.flat = pure (Potentials.initial problem).flat := by
  have hrows : (List.range size).mapM (fun row => do
      return (least? (← problem.flat.rowAt row)).getD 0) =
      pure ((List.finRange size).map (Potentials.initial problem).rows.get) :=
    mapM_range fun row => by simp [Potentials.rows_initial]
  have hleft (col : Fin size) : (List.range size).mapM (fun row => do
      return (← problem.flat.costAt row col) -
        (← read (Potentials.initial problem).rows.toArray row)) =
      pure ((List.finRange size).map fun row =>
        problem.cost row col - (Potentials.initial problem).rows.get row) :=
    mapM_range fun row => by simp
  have hcols : (List.range size).mapM (fun col => do
      let left ← (List.range size).mapM fun row => do
        return (← problem.flat.costAt row col) -
          (← read (Potentials.initial problem).rows.toArray row)
      return (least? left).getD 0) =
      pure ((List.finRange size).map (Potentials.initial problem).cols.get) := by
    refine mapM_range fun col => ?_
    rw [hleft, pure_bind, Potentials.cols_initial]
  rw [initial, Problem.size_flat, hrows, pure_bind, toArray_map_get, hcols, pure_bind,
    toArray_map_get]
  rfl

@[simp]
theorem reducedCost_flat : potentials.flat.reducedCost problem.flat row col =
    pure (potentials.reducedCost problem row col) := by
  simp [reducedCost, Potentials.reducedCost]

@[simp]
theorem allowance_flat : potentials.flat.allowance problem.flat row col =
    pure (potentials.allowance problem row col) := by
  simp [allowance, Potentials.allowance]

@[simp]
theorem isTight_flat : potentials.flat.isTight problem.flat row col =
    pure (potentials.isTight problem row col) := by
  simp [isTight, Potentials.isTight]

/-- A part of the square that is read off arrays itself. -/
theorem isFeasible_flat {part : Nat → Nat → Checked α Bool} {inside : Fin size → Fin size → Bool}
    (hpart : ∀ row col : Fin size, part row col = pure (inside row col)) :
    potentials.flat.isFeasible problem.flat part =
      pure (potentials.isFeasible problem inside) := by
  rw [isFeasible, Potentials.isFeasible, Square.places, List.all_flatMap, Problem.size_flat]
  refine allM_range fun row => ?_
  rw [List.all_map]
  refine allM_range fun col => ?_
  rw [hpart, pure_bind]
  cases hinside : inside row col <;> simp [hinside]

@[simp]
theorem tighten_flat (delta : α) (rows cols : Vector Bool size) :
    potentials.flat.tighten delta rows.toArray cols.toArray =
      (potentials.tighten delta rows cols).flat := by
  rw [tighten, Potentials.flat, zipWith_toArray, zipWith_toArray]
  rfl

end FlatPotentials

end Hungarian
