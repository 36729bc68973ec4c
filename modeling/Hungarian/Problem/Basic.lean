import Hungarian.Square

/-!
Square minimization problems. The cells of a problem of size `size` are the pairs of indices below
`size`; those outside the first `rows` rows and `cols` columns are padding, and the forbidden ones
cost the sentinel.
-/

namespace Hungarian

structure Problem (α : Type) (size : Nat) where
  rows : Nat
  cols : Nat
  costs : Square α size
  forbidden : Square Bool size
  sentinel : α
  /-- The reduced costs that count as zero in a search are those up to `epsilon`. -/
  epsilon : α

namespace Problem

variable {α : Type} {size : Nat}

def cost (problem : Problem α size) (row col : Fin size) : α :=
  problem.costs.get row col

def isForbidden (problem : Problem α size) (row col : Fin size) : Bool :=
  problem.forbidden.get row col

def isPadding (problem : Problem α size) (row col : Fin size) : Bool :=
  problem.rows ≤ row || problem.cols ≤ col

def isAllowed (problem : Problem α size) (row col : Fin size) : Bool :=
  !problem.isPadding row col && !problem.isForbidden row col

theorem isPadding_eq_false_iff {problem : Problem α size} {row col : Fin size} :
    problem.isPadding row col = false ↔ row < problem.rows ∧ col < problem.cols := by
  simp [isPadding]

theorem isAllowed_iff {problem : Problem α size} {row col : Fin size} :
    problem.isAllowed row col ↔
      problem.isPadding row col = false ∧ problem.isForbidden row col = false := by
  simp [isAllowed]

end Problem

end Hungarian
