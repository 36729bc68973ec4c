import Hungarian.Proofs.Potentials.Feasible
import Hungarian.Proofs.Stage.Simulation

/-!
# Costs shifted row by row

Adding a number to all costs of a row adds it to the potential of the row, at the beginning and
after every move, and to nothing else: the reduced costs stay what they are, and with them every
slack, every parent and every path. So two problems that differ by such shifts are matched by the
same searches.
-/

namespace Hungarian

open CostArithmetic

variable {size : Nat} {shift : Fin size → ℚ} {problem other : Problem ℚ size}

structure Problem.Shifted (shift : Fin size → ℚ) (problem other : Problem ℚ size) : Prop where
  epsilon_eq : other.epsilon = problem.epsilon
  cost_eq : ∀ row col, other.cost row col = problem.cost row col + shift row

namespace Potentials

structure Shifted (shift : Fin size → ℚ) (potentials other : Potentials ℚ size) : Prop where
  rows_eq : ∀ row, other.rows.get row = potentials.rows.get row + shift row
  cols_eq : ∀ col, other.cols.get col = potentials.cols.get col

theorem shifted_initial (h : problem.Shifted shift other) :
    (initial problem).Shifted shift (initial other) := by
  have hrows : ∀ row,
      (initial other).rows.get row = (initial problem).rows.get row + shift row := by
    intro row
    have hcosts : (other.costs.row row).toList =
        (problem.costs.row row).toList.map (· + shift row) := by
      rw [toList_eq_ofFn_get, toList_eq_ofFn_get, List.map_ofFn]
      exact congrArg List.ofFn (funext fun col => h.cost_eq row col)
    have hnonempty : (problem.costs.row row).toList ≠ [] :=
      List.ne_nil_of_mem (mem_toList_iff_get.mpr ⟨row, rfl⟩)
    rw [rows_initial, rows_initial, hcosts, least?_getD_map_add hnonempty]
  refine ⟨hrows, fun col => ?_⟩
  rw [cols_initial, cols_initial]
  congr 3
  funext row
  rw [h.cost_eq, hrows]
  ring

variable {potentials potentials' : Potentials ℚ size}

theorem Shifted.reducedCost_eq (h : potentials.Shifted shift potentials')
    (hproblem : problem.Shifted shift other) (row col : Fin size) :
    potentials.reducedCost problem row col = potentials'.reducedCost other row col := by
  rw [Potentials.reducedCost_eq, Potentials.reducedCost_eq, hproblem.cost_eq, h.rows_eq, h.cols_eq]
  ring

theorem Shifted.tighten (h : potentials.Shifted shift potentials') (delta : ℚ)
    (rows cols : Vector Bool size) :
    (potentials.tighten delta rows cols).Shifted shift (potentials'.tighten delta rows cols) where
  rows_eq row := by
    rw [rows_tighten, rows_tighten, h.rows_eq]
    split
    · ring
    · rfl
  cols_eq col := by
    rw [cols_tighten, cols_tighten, h.cols_eq]

end Potentials

namespace Problem.Shifted

variable (h : problem.Shifted shift other)

include h

theorem alike : problem.Alike Eq (Potentials.Shifted shift) other where
  lt_iff := by
    rintro x y _ _ rfl rfl
    exact Iff.rfl
  precedes_eq := by
    rintro x y _ _ rfl rfl
    rfl
  belowCeiling _ := ⟨rfl, rfl⟩
  far_iff := by
    rintro x _ rfl
    rw [h.epsilon_eq]
  reducedCost hpotentials row col := hpotentials.reducedCost_eq h row col

theorem simulates : Stage.Simulates Eq (Potentials.Shifted shift) problem other where
  alike := h.alike
  initial := Potentials.shifted_initial h
  moves := by
    intro matching root state state' col _ _ hmirrors _
    have hslack := hmirrors.tree.slack
    constructor
    · change (state.potentials.tighten _ state.tree.rows state.tree.cols).Shifted shift
        (state'.potentials.tighten _ state'.tree.rows state'.tree.cols)
      rw [hslack, hmirrors.tree.rows_eq, hmirrors.tree.cols_eq]
      exact hmirrors.potentials.tighten _ _ _
    · intro index _
      rw [hslack, hslack]

end Problem.Shifted

namespace Stage

variable {stage stage' : Stage ℚ size}

theorem Mirrors.searches_eq {sameDuals : Potentials ℚ size → Potentials ℚ size → Prop}
    (h : stage.Mirrors Eq sameDuals stage') : stage.searches = stage'.searches := by
  have hsearches : List.Forall₂ Eq stage.searches stage'.searches := by
    refine h.searches.imp fun search search' hsearch => ?_
    obtain ⟨hrow, hpath, hdeltas⟩ := hsearch
    rw [List.forall₂_eq_eq_eq] at hdeltas
    cases search
    cases search'
    rw [RowSearch.mk.injEq]
    exact ⟨hrow, hdeltas, hpath⟩
  rwa [List.forall₂_eq_eq_eq] at hsearches

/-- Shifted problems are matched by the same searches. -/
theorem exists_final_shifted (h : problem.Shifted shift other)
    (hfinal : final other = (stage', .ok ())) :
    ∃ stage, final problem = (stage, .ok ()) ∧ stage.matching = stage'.matching ∧
      stage.searches = stage'.searches := by
  obtain ⟨stage, hstage, hmirrors⟩ := h.simulates.exists_final_mirrors hfinal
  exact ⟨stage, hstage, hmirrors.matching_eq, hmirrors.searches_eq⟩

end Stage

end Hungarian
