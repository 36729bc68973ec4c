import Hungarian.Proofs.Double.Whole
import Hungarian.Proofs.Integral.Run
import Hungarian.Proofs.Stage.Simulation

/-!
# Whole costs in double precision

A run in double precision over whole costs takes the same turns as the exact one, with the same
numbers in all states. The tolerances need not be the same: between whole numbers they only tell zero
from what is more.
-/

namespace Hungarian

open CostArithmetic

variable {size : Nat} {double : Problem Float size} {problem : Problem ℚ size} {low spread : ℤ}

theorem lt_intCast_iff {error : ℚ} (hnonneg : 0 ≤ error) (hless : error < 1) (count : ℤ) :
    error < count ↔ 0 < count := by
  constructor
  · intro h
    exact_mod_cast hnonneg.trans_lt h
  · intro h
    have hone : ((1 : ℤ) : ℚ) ≤ count := Int.cast_le.mpr h
    rw [Int.cast_one] at hone
    exact hless.trans_le hone

theorem forall₂_toList {α β : Type} {same : α → β → Prop} {entries : Vector α size}
    {entries' : Vector β size} (h : ∀ index, same (entries.get index) (entries'.get index)) :
    List.Forall₂ same entries.toList entries'.toList := by
  rw [toList_eq_ofFn_get, toList_eq_ofFn_get, List.forall₂_iff_get]
  refine ⟨by simp, fun index hindex hindex' => ?_⟩
  simpa using h _

structure Problem.Stores (double : Problem Float size) (problem : Problem ℚ size) : Prop where
  rows_eq : double.rows = problem.rows
  cols_eq : double.cols = problem.cols
  forbidden_eq : double.forbidden = problem.forbidden
  cost : ∀ row col, Double.Stores (double.cost row col) (problem.cost row col)
  epsilon_isFinite : double.epsilon.isFinite = true
  epsilon_nonneg : 0 ≤ Double.value double.epsilon
  epsilon_lt_one : Double.value double.epsilon < 1

structure Potentials.Stores (problem : Problem ℚ size) (low spread : ℤ)
    (potentials : Potentials Float size) (exact : Potentials ℚ size) : Prop where
  rows : ∀ row, Double.Stores (potentials.rows.get row) (exact.rows.get row)
  cols : ∀ col, Double.Stores (potentials.cols.get col) (exact.cols.get col)
  isIntegral : exact.IsIntegral problem low spread

/-- A move of the potentials is exact when the exact one ends at small numbers. -/
theorem Potentials.Stores.tighten {potentials : Potentials Float size} {exact : Potentials ℚ size}
    (h : potentials.Stores problem low spread exact) (hproblem : problem.IsIntegral low spread)
    {delta : Float} {delta' : ℚ} (hdelta : Double.Stores delta delta') {rows cols : Vector Bool size}
    (hnext : (exact.tighten delta' rows cols).IsIntegral problem low spread) :
    (potentials.tighten delta rows cols).Stores problem low spread
      (exact.tighten delta' rows cols) where
  rows := by
    intro row
    have hsmall := hnext.isSmall_rows hproblem row
    rw [rows_tighten] at hsmall
    rw [rows_tighten, rows_tighten]
    split at hsmall
    · next hrow =>
        rw [if_pos hrow, if_pos hrow]
        exact (h.rows row).add hdelta hsmall
    · next hrow =>
        rw [if_neg hrow, if_neg hrow]
        exact h.rows row
  cols := by
    intro col
    have hsmall := hnext.isSmall_cols hproblem col
    rw [cols_tighten] at hsmall
    rw [cols_tighten, cols_tighten]
    split at hsmall
    · next hcol =>
        rw [if_pos hcol, if_pos hcol]
        exact (h.cols col).sub hdelta hsmall
    · next hcol =>
        rw [if_neg hcol, if_neg hcol]
        exact h.cols col
  isIntegral := hnext

/-- Within an exact run, moves are exact in double precision too. -/
theorem moveAlike (hproblem : problem.IsIntegral low spread) (matching : Matching size)
    (root : Fin size) : Search.MoveAlike Double.Stores (Potentials.Stores problem low spread)
      (Stage.Visits problem matching (some root)) := by
  intro state other col hvisited hnext hmirrors hcol
  have hdelta := hmirrors.tree.slack col
  refine ⟨?_, fun index hindex => ?_⟩
  · have hintegral := Stage.isIntegral_of_visits hproblem hnext
    have hmoved := hmirrors.potentials.tighten hproblem hdelta hintegral
    rw [← hmirrors.tree.rows_eq, ← hmirrors.tree.cols_eq] at hmoved
    rw [Search.State.tighten, Search.State.tighten, ← hmirrors.tree.rows_eq,
      ← hmirrors.tree.cols_eq]
    exact hmoved
  · have hsmall := Stage.isSmall_slack_of_visits hproblem hnext index
    change IsSmall ((other.tree.tighten _).slack.get index) at hsmall
    rw [Tree.slack_tighten, hindex, if_neg Bool.false_ne_true] at hsmall
    exact (hmirrors.tree.slack index).sub hdelta hsmall

namespace Problem.Stores

variable (h : double.Stores problem) (hproblem : problem.IsIntegral low spread)

include h hproblem

theorem far_iff {x : Float} {q : ℚ} (hx : Double.Stores x q) :
    double.epsilon < x ↔ problem.epsilon < q := by
  obtain ⟨count, hcount, -⟩ := hx.isSmall
  rw [Double.lt_iff_value h.epsilon_isFinite hx.denotes.isFinite, hx.denotes.value_eq, hcount,
    lt_intCast_iff h.epsilon_nonneg h.epsilon_lt_one,
    lt_intCast_iff hproblem.epsilon_nonneg hproblem.epsilon_lt_one]

theorem alike : double.Alike Double.Stores (Potentials.Stores problem low spread) problem where
  lt_iff hx hy := hx.denotes.lt_iff hy.denotes
  precedes_eq hx hy := hx.denotes.precedes hy.denotes
  belowCeiling hx := ⟨Double.belowCeiling_of_isFinite hx.denotes.isFinite, belowCeiling_exact _⟩
  far_iff hx := h.far_iff hproblem hx
  reducedCost hpotentials row col :=
    ((h.cost row col).sub (hpotentials.rows row)
      (hpotentials.isIntegral.isSmall_cost_sub hproblem row col)).sub (hpotentials.cols col)
      (hpotentials.isIntegral.isSmall_reducedCost hproblem row col)

theorem initial : Potentials.Stores problem low spread (.initial double) (.initial problem) := by
  have hintegral : (Potentials.initial problem).IsIntegral problem low spread :=
    Stage.isIntegral_of_visits hproblem (.stage .initial)
  have hrows : ∀ row, Double.Stores ((Potentials.initial double).rows.get row)
      ((Potentials.initial problem).rows.get row) := by
    intro row
    rw [Potentials.rows_initial, Potentials.rows_initial]
    exact Double.stores_least?_getD (forall₂_toList fun col => h.cost row col)
  refine ⟨hrows, fun col => ?_, hintegral⟩
  rw [Potentials.cols_initial, Potentials.cols_initial]
  apply Double.stores_least?_getD
  rw [List.forall₂_map_left_iff, List.forall₂_map_right_iff, List.forall₂_same]
  intro row _
  exact (h.cost row col).sub (hrows row) (hintegral.isSmall_cost_sub hproblem row col)

theorem simulates :
    Stage.Simulates Double.Stores (Potentials.Stores problem low spread) double problem where
  alike := h.alike hproblem
  initial := h.initial hproblem
  moves := moveAlike hproblem

end Problem.Stores

end Hungarian
