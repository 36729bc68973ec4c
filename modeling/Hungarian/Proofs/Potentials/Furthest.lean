import Hungarian.Proofs.Potentials.Feasible

/-!
# The furthest move of the potentials

Any rows and any columns may be marked, whether or not they form a tree. When the potentials of the
marked rows rise and those of the marked columns fall, the only reduced costs that fall are those of
the cells that leave the marked rows for a column without a mark. So the least of these is as far as
feasible potentials can move.
-/

namespace Hungarian.Potentials

open CostArithmetic

variable {size : Nat} {rows cols : Vector Bool size} {row col : Fin size}

def Leaves (rows cols : Vector Bool size) (row col : Fin size) : Prop :=
  rows.get row = true ∧ cols.get col = false

instance (rows cols : Vector Bool size) (row col : Fin size) : Decidable (Leaves rows cols row col) :=
  inferInstanceAs (Decidable (_ ∧ _))

def leastLeaving {α : Type} [CostArithmetic α] (problem : Problem α size)
    (potentials : Potentials α size) (rows cols : Vector Bool size) : α :=
  let leaving := (Square.places size).filter fun (row, col) => Leaves rows cols row col
  (least? (leaving.map fun (row, col) => potentials.reducedCost problem row col)).getD 0

variable {problem : Problem ℚ size} {potentials : Potentials ℚ size} {delta : ℚ}

def leavingCosts (problem : Problem ℚ size) (potentials : Potentials ℚ size)
    (rows cols : Vector Bool size) : Set ℚ :=
  { cost | ∃ row col, Leaves rows cols row col ∧ potentials.reducedCost problem row col = cost }

theorem isLeast_leastLeaving (problem : Problem ℚ size) (potentials : Potentials ℚ size)
    (hrow : ∃ row, rows.get row = true) (hcol : ∃ col, cols.get col = false) :
    IsLeast (potentials.leavingCosts problem rows cols)
      (potentials.leastLeaving problem rows cols) := by
  let leaving := (Square.places size).filter fun (row, col) => Leaves rows cols row col
  let costs := leaving.map fun (row, col) => potentials.reducedCost problem row col
  have hmem : ∀ cost, cost ∈ costs ↔ cost ∈ potentials.leavingCosts problem rows cols := by
    intro cost
    simp [costs, leaving, leavingCosts]
  obtain ⟨row, hrow⟩ := hrow
  obtain ⟨col, hcol⟩ := hcol
  have hne : costs ≠ [] := List.ne_nil_of_mem ((hmem _).mpr ⟨row, col, ⟨hrow, hcol⟩, rfl⟩)
  exact ⟨(hmem _).mp (least?_getD_mem hne), fun cost hcost => least?_getD_le ((hmem cost).mpr hcost)⟩

/-! ### What a move does to the cells -/

theorem reducedCost_tighten_of_leaves (h : Leaves rows cols row col) :
    (potentials.tighten delta rows cols).reducedCost problem row col =
      potentials.reducedCost problem row col - delta := by
  rw [reducedCost_tighten, if_pos h.1, h.2]
  simp

/-- A cell with two marks, and one without a mark, keeps its reduced cost. -/
theorem reducedCost_tighten_of_iff (h : rows.get row = true ↔ cols.get col = true) :
    (potentials.tighten delta rows cols).reducedCost problem row col =
      potentials.reducedCost problem row col := by
  rw [reducedCost_tighten]
  by_cases hrow : rows.get row = true
  · rw [if_pos hrow, if_pos (h.mp hrow)]
    ring
  · rw [if_neg hrow, if_neg (fun hcol => hrow (h.mpr hcol))]
    ring

/-- Only cells that leave the marked rows lose anything. -/
theorem le_reducedCost_tighten (hnonneg : 0 ≤ delta) (h : ¬Leaves rows cols row col) :
    potentials.reducedCost problem row col ≤
      (potentials.tighten delta rows cols).reducedCost problem row col := by
  rw [reducedCost_tighten]
  by_cases hrow : rows.get row = true
  · have hcol : cols.get col = true := by
      by_contra hcol
      exact h ⟨hrow, Bool.eq_false_iff.mpr hcol⟩
    rw [if_pos hrow, if_pos hcol]
    linarith
  · rw [if_neg hrow]
    split <;> linarith

/-- A move by no more than any cell loses that leaves the marked rows keeps the potentials
feasible. -/
theorem Feasible.tighten (hfeasible : potentials.Feasible problem) (hnonneg : 0 ≤ delta)
    (hle : ∀ row col, Leaves rows cols row col → delta ≤ potentials.reducedCost problem row col) :
    (potentials.tighten delta rows cols).Feasible problem := by
  intro row col
  by_cases hleaves : Leaves rows cols row col
  · rw [reducedCost_tighten_of_leaves hleaves]
    exact sub_nonneg.mpr (hle row col hleaves)
  · exact (hfeasible row col).trans (le_reducedCost_tighten hnonneg hleaves)

/-! ### As far as possible -/

/-- A move by the least reduced cost that leaves the marked rows, and what it amounts to. -/
structure IsFurthest (problem : Problem ℚ size) (potentials : Potentials ℚ size)
    (rows cols : Vector Bool size) (delta : ℚ) : Prop where
  isLeast : IsLeast (potentials.leavingCosts problem rows cols) delta
  feasible : (potentials.tighten delta rows cols).Feasible problem
  keeps : ∀ row col, rows.get row = cols.get col →
    (potentials.tighten delta rows cols).reducedCost problem row col =
      potentials.reducedCost problem row col
  exists_tight : ∃ row col, Leaves rows cols row col ∧
    (potentials.tighten delta rows cols).reducedCost problem row col = 0
  exists_neg : ∀ further, delta < further → ∃ row col,
    (potentials.tighten further rows cols).reducedCost problem row col < 0

theorem isFurthest_of_isLeast (hfeasible : potentials.Feasible problem)
    (h : IsLeast (potentials.leavingCosts problem rows cols) delta) :
    potentials.IsFurthest problem rows cols delta := by
  obtain ⟨⟨row, col, hleaves, hdelta⟩, hleast⟩ := id h
  have hnonneg : 0 ≤ delta := hdelta ▸ hfeasible row col
  refine {
    isLeast := h
    feasible := hfeasible.tighten hnonneg fun row col hleaves => hleast ⟨row, col, hleaves, rfl⟩
    keeps := fun row col heq => reducedCost_tighten_of_iff (by rw [heq])
    exists_tight := ⟨row, col, hleaves, ?_⟩
    exists_neg := fun further hfurther => ⟨row, col, ?_⟩ }
  · rw [reducedCost_tighten_of_leaves hleaves, hdelta, sub_self]
  · rw [reducedCost_tighten_of_leaves hleaves, hdelta]
    exact sub_neg.mpr hfurther

/-- **The furthest move.** Whatever rows and columns are marked, as long as some cell leaves the
marked rows, feasible potentials stay feasible when they move by the least reduced cost of these
cells: it makes one of them tight, changes no cell with two marks or none, and any further move
breaks feasibility. -/
theorem isFurthest_leastLeaving (hfeasible : potentials.Feasible problem)
    (hrow : ∃ row, rows.get row = true) (hcol : ∃ col, cols.get col = false) :
    potentials.IsFurthest problem rows cols (potentials.leastLeaving problem rows cols) :=
  isFurthest_of_isLeast hfeasible (isLeast_leastLeaving problem potentials hrow hcol)

def shiftProblem : Problem ℚ 3 where
  rows := 3
  cols := 3
  costs := ⟨#v[#v[4, 1, 3], #v[2, 0, 5], #v[3, 2, 2]]⟩
  forbidden := .ofFn fun _ _ => false
  sentinel := 21
  epsilon := 0

/-- The marks of a row that reached the column in the middle and the row it is matched to, and marks
of no tree at all. -/
theorem isFurthest_leastLeaving_shiftProblem :
    (initial shiftProblem).leastLeaving shiftProblem #v[true, true, false] #v[false, true, false] =
      1 ∧
    (initial shiftProblem).IsFurthest shiftProblem #v[true, true, false] #v[false, true, false] 1 ∧
    (initial shiftProblem).leastLeaving shiftProblem #v[false, false, true] #v[true, true, false] =
      0 ∧
    (initial shiftProblem).IsFurthest shiftProblem #v[false, false, true] #v[true, true, false]
      0 := by
  have hfeasible := feasible_initial shiftProblem
  have htree : (initial shiftProblem).leastLeaving shiftProblem #v[true, true, false]
      #v[false, true, false] = 1 := by decide +kernel
  have hother : (initial shiftProblem).leastLeaving shiftProblem #v[false, false, true]
      #v[true, true, false] = 0 := by decide +kernel
  refine ⟨htree, ?_, hother, ?_⟩
  · rw [← htree]
    exact isFurthest_leastLeaving hfeasible ⟨0, rfl⟩ ⟨0, rfl⟩
  · rw [← hother]
    exact isFurthest_leastLeaving hfeasible ⟨2, rfl⟩ ⟨2, rfl⟩

end Hungarian.Potentials
